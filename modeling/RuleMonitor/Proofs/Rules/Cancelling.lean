import RuleMonitor.Proofs.Rules.Explaining
import RuleMonitor.Proofs.Rules.Standing
import RuleMonitor.Proofs.Rules.Twins

/-!
# What cannot be observed

A replacement that a probe finds stands for the deletion of one context and the addition of the other.
No truth in the instantiation changes, the status is the one that both changes lead to, and what is
reported on later batches is what would be reported if they had been processed.

* `Rule.Sound.clears_exchange`: both changes can be processed by any strategy.
* **`Checker.replace_exact`**: a replacement is exact.
* **`Checker.replace_renames`**: only the text of a later error may tell it.
-/

namespace RuleMonitor

open Std (ExtTreeMap)

theorem Formula.Evaluates.step_deletion {reg : Registry} {P : Pools} {f : Formula} {env : Env}
    (hP : P.Keyed) (p : String) (c : Context) (h : f.Evaluates reg P env) :
    f.Evaluates reg (P.step ⟨.deletion, p, c⟩) env := by
  refine h.mono hP (hP.step _) fun p' id x hx => ?_
  rw [Pools.live?_step] at hx
  split_ifs at hx
  · cases hx
  · exact hx

/-- **The changes that a replacement stands for** can be processed by any strategy, if the formula
evaluates after both. -/
theorem Rule.Sound.clears_exchange {engine : Engine} {r : Rule} (h : r.Sound engine) {p : String}
    {del add : Context} (he : r.sentence.formula.Evaluates engine.registry
      (r.facts.pools.exchange p del.id add) ∅) (strategy : Strategy) :
    r.Clears engine strategy [⟨.deletion, p, del⟩, ⟨.addition, p, add⟩]
      (r.facts.pools.exchange p del.id add) := by
  refine ⟨he, fun _ _ => ?_⟩
  rw [Pools.trail_exchange, List.forall_mem_cons, List.forall_mem_singleton]
  exact ⟨h.evaluates.step_deletion h.keyed p del, he⟩

namespace Checker

variable {c : Checker} {s : Sentence} {reg : Registry} {r : Rule} {p : String} {del add : Context}
  {rep : Replacement}

/-- In every state that is reached without a failure, calls lead to an arena that stands for the
instantiation of the rule. -/
theorem Arrives.stands (h : Arrives reg s c) : c.Stands s.rule s := by
  induction h with
  | @added c c' facts report _ hok _ =>
    rw [← Routine.after_eq hok]
    refine upholds_addRule facts (fun _ => rfl) c fun r hr => ?_
    unfold addRule at hok
    rw [Routine.get_bind, ExtTreeMap.contains_eq_isSome_getElem?, hr, Option.isSome_some, if_pos rfl] at hok
    cases hok
  | checked _ hok _ ih => exact Routine.after_eq hok ▸ upholds_checkBatch _ _ _ ih
  | replaced _ _ _ _ hok ih => exact Routine.after_eq hok ▸ upholds_replace _ _ ih
  | other _ _ _ hrule ih => exact fun r hr => ih r (hrule ▸ hr)

/-- **A replacement is exact.** In a state that is reached without failures, a replacement that a probe
finds can be made. It keeps the truths of all nodes, exchanges the contexts in the facts, and leaves a
consistent instantiation and a consistent arena that stands for it, with the status that rebuilding
reports after the deletion of the one context and the addition of the other. Processing these instead is
reported in the same way, and so are all valid batches after that, up to the texts of errors. -/
theorem replace_exact {d : Draft} {root : Nat} (hs : d.build root = .ok s) (h : Arrives reg s c)
    (hr : c.rules[s.rule]? = some r) (hlive : r.facts.pools.live? p del.id = some del)
    (hfree : add.id ≠ del.id → r.facts.pools.live? p add.id = none)
    (hprobe : c.probe s.rule p del add = .ok (some rep)) :
    ∃ c₁ r₁, replace rep c = .ok ⟨⟩ c₁ ∧ c₁.rules[s.rule]? = some r₁ ∧
      r₁.tree.truths = r.tree.truths ∧ r₁.facts.pools = r.facts.pools.exchange p del.id add ∧
      r₁.tree.check s = .ok () ∧
      (∃ a, Arena.Reached s a ∧ a.tree = r₁.tree ∧ a.check s = .ok ()) ∧
      (∃ c₂, checkBatch s.rule [⟨.deletion, p, del⟩, ⟨.addition, p, add⟩]
        { c with options := { c.options with strategy := .full } } = .ok r₁.report c₂) ∧
      ∃ c₂, checkBatch s.rule [⟨.deletion, p, del⟩, ⟨.addition, p, add⟩] c = .ok r₁.report c₂ ∧
        ∀ batches pools, r₁.facts.pools.afterEach? batches = some pools →
          AlikeOn s.rule batches c₁ c₂ := by
  obtain ⟨-, r', hr', hsound, rfl⟩ := h.sound (Sentence.wellFormed_of_build hs)
  obtain rfl := Option.some.inj (hr.symm.trans hr')
  have hx : r.facts.pools.Exchangeable p del add := ⟨hlive, hfree⟩
  obtain ⟨r₁, hreplace, hsound₁, hsent₁, hpools₁, htruths⟩ :=
    replace_does hr hsound hx (suits_of_probe hr hsound hlive hprobe)
  have he := hsound₁.evaluates
  rw [hsent₁, hpools₁] at he
  -- Any strategy leaves a twin of the rule after the replacement.
  have hpair : ∀ strategy, ∃ r₂, Cycle.Turns (Rule.cycle c.engine strategy
      [⟨.deletion, p, del⟩, ⟨.addition, p, add⟩]) r ⟨⟩ r₂ ∧ r₁.Twins c.engine r₂ ∧
        r₂.report = r₁.report := by
    intro strategy
    obtain ⟨r₂, hturns, hsound₂, hsent₂, hpools₂⟩ := Rule.cycle_turns_of_brings
      (Rule.process_brings_of_clears hsound.rests (Pools.after?_exchange hx)
        (hsound.clears_exchange he strategy))
    refine ⟨r₂, hturns, hsound₁.twins hsound₂ (hsent₂.trans hsent₁.symm)
      (hpools₂.trans hpools₁.symm), ?_⟩
    rw [hsound₁.report, hsound₂.report, hsent₁, hsent₂, hpools₁, hpools₂]
  obtain ⟨c₁, hok₁, hb₁⟩ := hreplace c rfl
  have hrule₁ : c₁.rules[r.sentence.rule]? = some r₁ := by
    rw [rules_eq_of_bare hb₁]
    exact ExtTreeMap.getElem?_insert_self
  have hcheck : r₁.tree.check r.sentence = .ok () := hsent₁ ▸ hsound₁.check
  have hstands : c₁.Stands r.sentence.rule r.sentence :=
    Routine.after_eq hok₁ ▸ upholds_replace rep c h.stands
  obtain ⟨a, hreached, htree, hsame⟩ := (hstands r₁ hrule₁).2.exists_check
  refine ⟨c₁, r₁, hok₁, hrule₁, htruths, hpools₁, hcheck, ⟨a, hreached, htree, hsame.symm.trans hcheck⟩,
    ?_, ?_⟩
  · obtain ⟨r₂, hturns, -, hreport⟩ := hpair .full
    obtain ⟨c₂, hok₂, -⟩ := does_checkBatch
      (c := { c with options := { c.options with strategy := .full } }) hr hturns _ rfl
    exact ⟨c₂, hreport ▸ hok₂⟩
  · obtain ⟨r₂, hturns, htwins, hreport⟩ := hpair c.options.strategy
    obtain ⟨c₂, hok₂, hb₂⟩ := does_checkBatch hr hturns c rfl
    have hrule₂ : c₂.rules[r.sentence.rule]? = some r₂ := by
      rw [rules_eq_of_bare hb₂, ExtTreeMap.getElem?_insert_self]
    refine ⟨c₂, hreport ▸ hok₂, fun batches pools hv =>
      alikeOn_of_twins batches hrule₁ hrule₂ ?_ ?_ ?_ hv⟩
    · rw [engine_eq_of_bare hb₁]
      exact htwins
    · rw [registry_eq_of_bare hb₁, registry_eq_of_bare hb₂]
    · rw [options_eq_of_bare hb₁, options_eq_of_bare hb₂]

end Checker

/-! ## A sample -/

namespace Sample

/-- At the place of every visitor there is a guide. -/
def guiding : Draft where
  rule := "guided"
  nodes := [.application ⟨"same_loc", [("v1", "x"), ("v2", "y")]⟩,
    .quantified { kind := .existential, var := "y", pattern := "guide" } 0,
    .quantified { kind := .universal, var := "x", pattern := "visitor" } 1]

/-- The sentence of the draft. -/
def guided : Sentence :=
  { guiding with
    root := 2
    formula := .quantified 2 { kind := .universal, var := "x", pattern := "visitor" }
      (.quantified 1 { kind := .existential, var := "y", pattern := "guide" }
        (.application 0 ⟨"same_loc", [("v1", "x"), ("v2", "y")]⟩)) }

/-- A visitor whose place is not known. -/
def visitor (id : Nat) : Context :=
  ⟨id, ∅⟩

/-- A checker that processes one change after the other. -/
def guests : Checker where
  options := { strategy := .change }
  registry := .builtin

/-- Two visitors. -/
def visits : List Change :=
  [⟨.addition, "visitor", visitor 0⟩, ⟨.addition, "visitor", visitor 1⟩]

/-- Two visitors have come, and no guide yet. -/
def visited : Checker :=
  (Checker.addRule guided visits).after guests

/-- The first visitor goes, and another one comes. -/
def relief : List Change :=
  [⟨.deletion, "visitor", visitor 0⟩, ⟨.addition, "visitor", visitor 2⟩]

/-- The other visitor in the place of the first one. -/
def relieving : Replacement where
  rule := "guided"
  pattern := "visitor"
  var := "x"
  del := visitor 0
  add := visitor 2
  branches := [1]

/-- A guide comes. -/
def arrival : List Change :=
  [⟨.addition, "guide", visitor 3⟩]

theorem build_guiding : guiding.build 2 = .ok guided := rfl

/-- What is reported on the two visitors. -/
def unguided : Report :=
  ⟨"guided", ⟨.no, [⟨.violated, (∅ : Bindings).insert "x" 0⟩,
    ⟨.violated, (∅ : Bindings).insert "x" 1⟩]⟩, none⟩

/-- What is reported on the guide, whose place is compared with that of a visitor. -/
def unplaced (id : Nat) : Report :=
  ⟨"guided", ⟨.no, [⟨.violated, (∅ : Bindings).insert "x" 1⟩,
    ⟨.violated, (∅ : Bindings).insert "x" 2⟩]⟩,
    some s!"predicate `same_loc`: context `ctx#{id}` has no attribute `location`"⟩

/-- The first visitor is replaced before the guide comes, or leaves and is followed by the other one. -/
theorem visits_value : (Checker.addRule guided visits).value guests = .ok unguided ∧
    visited.probe "guided" "visitor" (visitor 0) (visitor 2) = .ok (some relieving) ∧
    (visited.rules["guided"]?).map (fun r =>
        (r.facts.pools.live? "visitor" 0, r.facts.pools.live? "visitor" 2,
          (r.facts.pools.after? (relief ++ arrival)).isSome)) =
      some (some (visitor 0), none, true) ∧
    (do
        Checker.replace relieving
        Checker.checkBatch "guided" arrival).value visited = .ok (unplaced 2) ∧
    (do
        let _ ← Checker.checkBatch "guided" relief
        Checker.checkBatch "guided" arrival).value visited = .ok (unplaced 1) := by
  decide +kernel

theorem arrives_visited : Checker.Arrives .builtin guided visited := by
  obtain ⟨c, hok⟩ := Routine.exists_of_value visits_value.1
  rw [visited, Routine.after_eq hok]
  exact .added rfl hok rfl

end Sample

/-- **The text of a later error tells a replacement.** The new visitor takes the branch of the one that
is gone, and not the last one, so that its place is asked for first. -/
theorem Checker.replace_renames : ∃ r c₁ c₂ report a b d₁ d₂,
    Arrives .builtin Sample.guided Sample.visited ∧ Sample.visited.rules["guided"]? = some r ∧
      r.facts.pools.live? "visitor" 0 = some (Sample.visitor 0) ∧
      r.facts.pools.live? "visitor" 2 = none ∧
      (r.facts.pools.after? (Sample.relief ++ Sample.arrival)).isSome = true ∧
      Sample.visited.probe "guided" "visitor" (Sample.visitor 0) (Sample.visitor 2) =
        .ok (some Sample.relieving) ∧
      replace Sample.relieving Sample.visited = .ok ⟨⟩ c₁ ∧
      checkBatch "guided" Sample.relief Sample.visited = .ok report c₂ ∧
      checkBatch "guided" Sample.arrival c₁ = .ok a d₁ ∧
      checkBatch "guided" Sample.arrival c₂ = .ok b d₂ ∧ a ≠ b := by
  obtain ⟨-, hprobe, hvisited, hreplaced, hprocessed⟩ := Sample.visits_value
  obtain ⟨r, hr, hlive⟩ := Option.map_eq_some_iff.mp hvisited
  obtain ⟨hlive, hfacts⟩ := Prod.mk.inj hlive
  obtain ⟨hfree, hvalid⟩ := Prod.mk.inj hfacts
  obtain ⟨d₁, h₁⟩ := Routine.exists_of_value hreplaced
  obtain ⟨u, c₁, hreplace, hcheck₁⟩ := Routine.bind_eq_ok.mp h₁
  obtain ⟨d₂, h₂⟩ := Routine.exists_of_value hprocessed
  obtain ⟨report, c₂, hprocess, hcheck₂⟩ := Routine.bind_eq_ok.mp h₂
  exact ⟨r, c₁, c₂, report, _, _, d₁, d₂, Sample.arrives_visited, hr, hlive, hfree, hvalid,
    hprobe, hreplace, hprocess, hcheck₁, hcheck₂, by decide +kernel⟩

theorem Checker.replace_exact_sample : ∃ c₁ r₁ c₂,
    replace Sample.relieving Sample.visited = .ok ⟨⟩ c₁ ∧ c₁.rules["guided"]? = some r₁ ∧
      r₁.tree.check Sample.guided = .ok () ∧
      (∃ a, Arena.Reached Sample.guided a ∧ a.tree = r₁.tree ∧ a.check Sample.guided = .ok ()) ∧
      checkBatch "guided" Sample.relief Sample.visited = .ok r₁.report c₂ ∧
      AlikeOn "guided" [Sample.arrival] c₁ c₂ := by
  obtain ⟨-, hprobe, hvisited, -⟩ := Sample.visits_value
  obtain ⟨r, hr, hlive⟩ := Option.map_eq_some_iff.mp hvisited
  obtain ⟨hlive, hfacts⟩ := Prod.mk.inj hlive
  obtain ⟨hfree, hvalid⟩ := Prod.mk.inj hfacts
  obtain ⟨c₁, r₁, hok₁, hr₁, -, hpools, hcheck, harena, -, c₂, hok₂, halike⟩ :=
    replace_exact Sample.build_guiding Sample.arrives_visited hr hlive (fun _ => hfree) hprobe
  obtain ⟨Q, hQ⟩ := Option.isSome_iff_exists.mp hvalid
  have hafter : r.facts.pools.after? Sample.relief = some r₁.facts.pools :=
    (Pools.after?_exchange ⟨hlive, fun _ => hfree⟩).trans (congrArg some hpools.symm)
  rw [Pools.after?_append, hafter, Option.bind_some] at hQ
  refine ⟨c₁, r₁, c₂, hok₁, hr₁, hcheck, harena, hok₂, halike _ [Q] ?_⟩
  rw [Pools.afterEach?, hQ]
  rfl

end RuleMonitor
