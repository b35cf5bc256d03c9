import RuleMonitor.Proofs.Evaluation.Generation
import RuleMonitor.Proofs.Rules.Covering

/-!
# Links that are kept

The links that a node keeps do not say for which truths they were found. Still they are never out of
date where a cycle may use them again: those of all nodes, or with minimal links those of the nodes
that were visited last, are what the truths and the bindings below the node tell. So a quantifier that
keeps its links, and only looks at its fresh branches, finds the links of all of them.

* `Rule.Current`, `Rule.Keeps`: links that are up to date; **`Rule.Upright.keeps`**: so they are between
  cycles.
* `Setting.Resumes`: what quantifiers find that go on with their links;
  **`Setting.Explicable.resumes`**: the links of all branches.
* `Rule.Generates`: the rules whose links are generated in a cycle.
* **`Checker.links_current`**: links in the states that operations without failures lead to.
-/

namespace RuleMonitor

open Std (ExtTreeMap ExtTreeSet)

namespace Rule

/-- The links of a node are what its tree tells, as an explanation from scratch finds it. -/
def Current (engine : Engine) (r : Rule) (m : Node) : Prop :=
  ∃ g, r.sentence.formula.at? m.cell.formula = some g ∧ m.cell.links = some (g.linksOf m) ∧
    ∀ concurrent was, ∃ e, ((r.setting engine .everything concurrent).explain was g m).Yields e ∧
      e.links = g.linksOf m

/-- What the links of a rule are between cycles, with the root of its instantiation. -/
structure Keeps (engine : Engine) (r : Rule) (n : Node) : Prop where
  committed : ∀ m ∈ n.subtrees, m.cell.truth = m.cell.staged
  all : engine.minimalLinks = false → ∀ m ∈ n.subtrees, r.Current engine m
  substantial : engine.minimalLinks = true →
    ∀ m ∈ n.subtrees, m.index ∈ r.tree.substantial → r.Current engine m
  nodes : ∀ i ∈ r.tree.substantial, i ∈ n.indices
  root : engine.minimalLinks = true → (n.index ∈ r.tree.substantial ↔ n.cell.truth = .no)

end Rule

/-- A quantifier that the cycle affects, and that goes on with the links that it has, finds the links of
all its branches when it looks at the fresh ones. -/
def Setting.Resumes (s : Setting) (was : Nat → Bool) (n : Node) : Prop :=
  ∀ m ∈ n.subtrees, ∀ i q body,
    s.sentence.formula.at? m.cell.formula = some (.quantified i q body) →
    s.focus.affects (.quantified i q body) = true →
    ∀ L, s.keptLinks body m.cell (!s.minimalLinks || was m.index) = some L →
      L ∪ q.collect body.linksOf m.freshKids = q.collect body.linksOf m.kids ∧
      ∃ e, (s.explain was (.quantified i q body) m).Yields e ∧ e.links = q.collect body.linksOf m.kids

/-! ## Between cycles -/

theorem Formula.Every.judged {r : Registry} {P : Pools} {f : Formula} {n : Node}
    (hp : f.Every (Placed P) n) (hf : f.Every (Found r P) n) : f.Every Judged n := by
  refine (hp.and hf).imp fun g _ m _ h => ⟨⟨_, h.2.1⟩, ?_⟩
  cases g with
  | quantified i q body => exact Setting.isSome_of_places h.1.2
  | binary i op left right | negation i body | application i a => exact trivial

namespace Rule

variable {engine : Engine} {r r' : Rule} {n : Node} {focus : Focus} {l : List Nat} {c c' : Cycle}
  {batch : List Change} {change : Change}

/-- **Between cycles, links are up to date** wherever they may be used again. -/
theorem Upright.keeps (h : r.Upright engine) (hn : r.tree.root = some n) : r.Keeps engine n := by
  obtain ⟨n', hright, hcalm⟩ := h.tree
  obtain rfl := Option.some.inj (hn.symm.trans hright.root)
  have hlinked := h.linked n hn
  have hcommitted : ∀ m ∈ n.subtrees, m.cell.truth = m.cell.staged := by
    intro m hm
    obtain ⟨g, -, hf⟩ := hright.found.exists_of_mem m hm
    exact hf.2.1 (hcalm m.cell (Node.cell_mem_cells_of_mem hm))
  have hcurrent : ∀ m ∈ n.subtrees, r.tree.Trusted engine.minimalLinks m.index →
      r.Current engine m := by
    rintro ⟨c, kids⟩ hm htrust
    obtain ⟨g, hg, hp, hf, hc⟩ := (hright.placed.trees.and
      (hright.found.trees.and hright.cached.trees)).exists_of_mem _ hm
    simp only [Node.cell_mk, Node.kids_mk] at hp hf hc
    obtain ⟨L, hL⟩ := Option.isSome_iff_exists.mp
      (hlinked.links c (Node.cell_mem_cells_of_mem hm) htrust)
    have hlinks := Formula.linksOf_eq_links hp hf
    refine ⟨g, ?_, ?_, fun concurrent was => ?_⟩
    · have hformula : c.formula = g.index := hp.root.1
      rw [Node.cell_mk, hformula]
      exact h.wellFormed.at?_of_mem hg
    · rw [Node.cell_mk, hL, hlinks, hc.root htrust L hL]
    · obtain ⟨e, hy, he, -⟩ := (r.setting engine .everything concurrent).explain_scratch was rfl
        (hp.judged hf)
      exact ⟨e, hy, he⟩
  refine ⟨hcommitted, fun hm m hmem => hcurrent m hmem fun hm' => ?_,
    fun _ m hmem hi => hcurrent m hmem fun _ => hi, hlinked.nodes, fun hm => ?_⟩
  · exact absurd (hm.symm.trans hm') Bool.false_ne_true
  · rw [hlinked.root hm, hcommitted n n.mem_subtrees_self]

end Rule

/-! ## Where links are generated -/

/-- **Links that are kept are gone on with.** -/
theorem Setting.Explicable.resumes {s : Setting} {P : Pools} {t : Tree} {n : Node}
    (h : s.Explicable P s.sentence.formula t n) (hw : s.sentence.WellFormed) :
    s.Resumes t.wasSubstantial.contains n := by
  rintro ⟨c, kids⟩ hm i q body hat ha L hL
  obtain ⟨g, hg, hp, hf, hc⟩ := (h.placed.trees.and
    (h.found.trees.and h.carried.trees)).exists_of_mem _ hm
  simp only [Node.cell_mk, Node.kids_mk] at hp hf hc hat hL
  have hd := Node.nodup_indices_of_mem h.owns.nodup hm
  obtain rfl : g = .quantified i q body := by
    have hformula : c.formula = g.index := hp.root.1
    rw [hformula, hw.at?_of_mem hg] at hat
    exact Option.some.inj hat
  have hpl : (kids.map Node.place).Perm (q.places P c.env) := hp.1.2
  have hlinks : ∀ kid ∈ kids, body.linksOf kid = body.links s.registry P kid.cell.env :=
    fun kid hk => Formula.linksOf_eq_links (hp.2 kid hk) (hf.2 kid hk)
  unfold keptLinks at hL
  split_ifs at hL with hk
  rw [Bool.and_eq_true, Bool.and_eq_true, Bool.not_eq_true', Bool.not_eq_true'] at hk
  constructor
  · -- the links that are kept are those of the branches that stayed
    have hgather := hc.1 hk.2 L hL
    rw [if_pos ha] at hgather
    have hstayed : ∀ kid ∈ (Node.mk c kids).oldKids, kid ∈ kids :=
      fun _ => Node.mem_kids_of_mem_oldKids
    have hold : L = q.collect body.linksOf (Node.mk c kids).oldKids := by
      refine ExtTreeSet.ext_mem fun {l} => ?_
      rw [Formula.mem_collect_linksOf hpl hstayed (fun kid hkid => hf.2 kid (hstayed kid hkid))
        fun kid hkid => hlinks kid (hstayed kid hkid)]
      exact hgather hk.1.1 hk.1.2 l
    rw [hold, ← Quantifier.collect_append, Node.oldKids_append_freshKids]
  · obtain ⟨e, hy, he⟩ := Setting.explain_yields hp hf hc hd
    refine ⟨e, hy, he.links.trans (Formula.linksOf_eq_links hp hf).symm⟩

namespace Rule

variable {engine : Engine} {r r' : Rule} {n : Node} {focus : Focus} {l : List Nat} {c c' : Cycle}
  {batch : List Change} {change : Change}

/-- The links of a rule are generated in a cycle that started with another one. A cycle that rebuilds the
instantiation keeps no links. -/
inductive Generates (engine : Engine) : Rule → Focus → List Nat → Rule → Prop
  /-- In a cycle on a whole batch. -/
  | batch {c c' : Cycle} {batch : List Change} {concurrent : Bool} {l : List Nat}
      (hok : judgeBatch engine batch concurrent c = .ok l c') :
      Generates engine c.rule (.patterns (batch.map (·.pattern))) l c'.rule
  /-- In a cycle on one change after the other, after some changes and some steps of the next one. -/
  | change {c c₁ c₂ c₃ c' : Cycle} {before : List Change} {change step : Change}
      {done rest : List Change} (hbefore : takeChanges engine none before c = .ok none c₁)
      (hsteps : stepsOf change c₁ = .ok (done ++ step :: rest) c₂)
      (hdone : takeSteps engine none done c₂ = .ok none c₃)
      (hok : judgeChange engine step c₃ = .ok ⟨⟩ c') :
      Generates engine c.rule (.patterns [step.pattern]) [] c'.rule

theorem explicable_of_judgeBatch {concurrent : Bool} (h : c.rule.Upright engine)
    (hd : c.rule.facts.deltas = ∅) (hok : judgeBatch engine batch concurrent c = .ok l c') :
    ∃ n, (c'.rule.setting engine (.patterns (batch.map (·.pattern))) l).Explicable
      c'.rule.facts.pools c'.rule.sentence.formula c'.rule.tree n ∧
      c'.rule.sentence = c.rule.sentence := by
  obtain ⟨Q, hQ⟩ : ∃ Q, c.rule.facts.pools.after? batch = some Q := by
    obtain ⟨u, c₁, h₁, -⟩ := Routine.bind_eq_ok.mp hok
    obtain ⟨facts, h₁⟩ := exists_of_onFacts h₁
    exact FactStore.after?_of_applyBatch h₁
  by_cases he : c.rule.sentence.formula.Evaluates engine.registry Q ∅
  · obtain ⟨facts, tree, n, l', hturns, rfl, hexpl, -⟩ := judgeBatch_turns h hd hQ he concurrent
    obtain ⟨rfl, hrule⟩ := hturns.of_ok hok
    rw [hrule]
    exact ⟨n, hexpl, rfl⟩
  · exact absurd hok (judgeBatch_spoils (K := fun _ => True) (fun _ h => h) h hd hQ
      (Formula.answers_true _ Q _ ∅) he concurrent).ne_ok

theorem explicable_of_judgeChange {u : Unit} (h : c.rule.Upright engine) (hk : change.kind ≠ .update)
    (hok : judgeChange engine change c = .ok u c') :
    ∃ n, (c'.rule.setting engine (.patterns [change.pattern]) []).Explicable
      c'.rule.facts.pools c'.rule.sentence.formula c'.rule.tree n ∧
      c'.rule.sentence = c.rule.sentence := by
  have hv := isValid_of_judgeChange hok
  by_cases he : c.rule.sentence.formula.Evaluates engine.registry (c.rule.facts.pools.step change) ∅
  · obtain ⟨facts, tree, n, hturns, -, hexpl, -⟩ := judgeChange_turns h hk hv he
    rw [(hturns.of_ok hok).2]
    exact ⟨n, hexpl, rfl⟩
  · exact absurd hok (judgeChange_spoils (K := fun _ => True) (fun _ h => h) h hk hv
      (Formula.answers_true _ _ _ ∅) he).ne_ok

/-! What was processed without a failure leaves an instantiation that is right. -/

theorem upright_of_stepChange {u : Unit} (h : c.rule.Upright engine) (hk : change.kind ≠ .update)
    (hok : stepChange engine change c = .ok u c') :
    c'.rule.Upright engine ∧ c'.rule.sentence = c.rule.sentence := by
  have hv := isValid_of_stepChange hok
  by_cases he : c.rule.sentence.formula.Evaluates engine.registry (c.rule.facts.pools.step change) ∅
  · obtain ⟨facts, tree, hturns, -, hu⟩ := stepChange_brings h hk hv he
    rw [(hturns.of_ok hok).2]
    exact ⟨hu, rfl⟩
  · exact absurd hok (stepChange_spoils (K := fun _ => True) (fun _ h => h) h hk hv
      (Formula.answers_true _ _ _ ∅) he).ne_ok

theorem stepChange_of_takeStep (hok : takeStep engine none change c = .ok none c') :
    stepChange engine change c = .ok ⟨⟩ c' := by
  obtain ⟨o, c₁, h₁, hok⟩ := Routine.bind_eq_ok.mp hok
  rcases Routine.exists_of_attempt h₁ with ⟨u, rfl, hstep⟩ | ⟨e, rfl, -⟩
  · cases hok
    exact hstep
  · cases e with
    | crash e => cases hok
    | error e =>
      dsimp only at hok
      split_ifs at hok <;> cases hok

theorem upright_of_takeSteps {steps : List Change} : ∀ {c : Cycle}, c.rule.Upright engine →
    (∀ s ∈ steps, s.kind ≠ .update) → takeSteps engine none steps c = .ok none c' →
    c'.rule.Upright engine ∧ c'.rule.sentence = c.rule.sentence := by
  induction steps with
  | nil =>
    intro c h _ hok
    cases hok
    exact ⟨h, rfl⟩
  | cons step steps ih =>
    intro c h hk hok
    rw [List.forall_mem_cons] at hk
    obtain ⟨o, c₁, h₁, hok⟩ := Routine.bind_eq_ok.mp hok
    cases o with
    | some e => cases takeSteps_failed hok
    | none =>
      obtain ⟨hu, hs⟩ := upright_of_stepChange h hk.1 (stepChange_of_takeStep h₁)
      obtain ⟨hu', hs'⟩ := ih hu hk.2 hok
      exact ⟨hu', hs'.trans hs⟩

theorem kinds_of_stepsOf {steps : List Change} (hok : stepsOf change c = .ok steps c') :
    c' = c ∧ ∀ s ∈ steps, s.kind ≠ .update := by
  unfold stepsOf at hok
  cases hk : change.kind with
  | update =>
    rw [hk] at hok
    dsimp only at hok
    rw [Routine.get_bind] at hok
    cases hold : c.rule.facts.get? change.pattern change.id with
    | none =>
      simp only [hold] at hok
      cases hok
    | some old =>
      simp only [hold] at hok
      cases hok
      exact ⟨rfl, by simp⟩
  | addition | deletion =>
    rw [hk] at hok
    cases hok
    exact ⟨rfl, by simp [hk]⟩

theorem upright_of_takeChanges {changes : List Change} : ∀ {c : Cycle}, c.rule.Upright engine →
    takeChanges engine none changes c = .ok none c' →
    c'.rule.Upright engine ∧ c'.rule.sentence = c.rule.sentence := by
  induction changes with
  | nil =>
    intro c h hok
    cases hok
    exact ⟨h, rfl⟩
  | cons change changes ih =>
    intro c h hok
    obtain ⟨steps, c₁, h₁, hok⟩ := Routine.bind_eq_ok.mp hok
    obtain ⟨o, c₂, h₂, hok⟩ := Routine.bind_eq_ok.mp hok
    obtain ⟨rfl, hk⟩ := kinds_of_stepsOf h₁
    cases o with
    | some e => cases takeChanges_failed hok
    | none =>
      obtain ⟨hu, hs⟩ := upright_of_takeSteps h hk h₂
      obtain ⟨hu', hs'⟩ := ih hu hok
      exact ⟨hu', hs'.trans hs⟩

/-- **Where links are generated**, there is what they are generated from. -/
theorem Generates.explicable (hg : Generates engine r focus l r') (h : r.Upright engine)
    (hd : r.facts.deltas = ∅) :
    ∃ n, (r'.setting engine focus l).Explicable r'.facts.pools r'.sentence.formula r'.tree n ∧
      r'.sentence = r.sentence := by
  cases hg with
  | batch hok => exact explicable_of_judgeBatch h hd hok
  | change hbefore hsteps hdone hok =>
    obtain ⟨h₁, hs₁⟩ := upright_of_takeChanges h hbefore
    obtain ⟨rfl, hk⟩ := kinds_of_stepsOf hsteps
    rw [List.forall_mem_append, List.forall_mem_cons] at hk
    obtain ⟨h₂, hs₂⟩ := upright_of_takeSteps h₁ hk.1 hdone
    obtain ⟨n, hexpl, hs₃⟩ := explicable_of_judgeChange h₂ hk.2.1 hok
    exact ⟨n, hexpl, hs₃.trans (hs₂.trans hs₁)⟩

end Rule

namespace Checker

variable {c : Checker} {s : Sentence} {reg : Registry}

/-- **Links are never out of date where they may be used again.** After operations without failures, all
nodes have links that are up to date; with minimal links the substantial nodes have, and the root is
one of them if and only if it is false. Whenever the links are generated next, a quantifier that goes
on with its links finds those of all its branches. -/
theorem links_current {d : Draft} {root : Nat} (hs : d.build root = .ok s) (h : Arrives reg s c) :
    ∃ r n, c.rules[s.rule]? = some r ∧ r.sentence = s ∧ r.tree.root = some n ∧ r.Keeps c.engine n ∧
      ∀ focus l r', r.Generates c.engine focus l r' → ∃ n', r'.tree.root = some n' ∧
        (r'.setting c.engine focus l).Resumes r'.tree.wasSubstantial.contains n' := by
  have hw := Sentence.wellFormed_of_build hs
  obtain ⟨-, r, hr, hsound, rfl⟩ := h.sound hw
  obtain ⟨n, hn, -⟩ := hsound.tree
  refine ⟨r, n, hr, rfl, hn.root, hsound.toUpright.keeps hn.root, fun focus l r' hg => ?_⟩
  obtain ⟨n', hexpl, hsent⟩ := hg.explicable hsound.toUpright hsound.deltas
  have hw' : r'.sentence.WellFormed := hsent ▸ hw
  exact ⟨n', hexpl.root, hexpl.resumes hw'⟩

end Checker

/-! ## A sample -/

namespace Sample

/-- The quantifier of the sample. -/
def everySensor : Quantifier :=
  { kind := .universal, var := "x", pattern := "sensor" }

/-- The body of the quantifier. -/
def isCalm : Formula :=
  .application 0 ⟨"calm", [("v1", "x")]⟩

/-- Another sensor that is not calm, until the links are generated. -/
def judgeNewcomer : Routine Cycle (List Nat) :=
  Rule.judgeBatch alarmed.engine [change .addition 1 "1"] false

/-- The formula of the root, and the links that it keeps when a sensor was added. -/
def keptAtRoot (r : Rule) : Option (Formula × List Link) := do
  let n ← r.tree.root
  let f ← r.sentence.formula.at? n.cell.formula
  let s := r.setting alarmed.engine (.patterns ["sensor"]) []
  let L ← s.keptLinks isCalm n.cell (!s.minimalLinks || r.tree.wasSubstantial.contains n.index)
  return (f, L.toList)

end Sample

theorem Checker.links_current_sample : ∃ r n, Sample.alarmed.rules["calm"]? = some r ∧
    r.tree.root = some n ∧ r.Keeps Sample.alarmed.engine n ∧ n.index ∈ r.tree.substantial ∧
    ∃ r' n' L, r.Generates Sample.alarmed.engine (.patterns ["sensor"]) [] r' ∧
      r'.tree.root = some n' ∧ L.toList = [Sample.witness] ∧
      L ∪ Sample.everySensor.collect Sample.isCalm.linksOf n'.freshKids =
        Sample.everySensor.collect Sample.isCalm.linksOf n'.kids := by
  have hadded : Checker.addRule Sample.sentence [Sample.change .addition 0 "1"] Sample.checker =
      .ok ⟨"calm", ⟨.no, [Sample.witness]⟩, none⟩ Sample.alarmed := rfl
  have hfalse : (Sample.alarmed.rules["calm"]?).map (fun r => r.tree.root.map (·.cell.truth)) =
      some (some .no) := by decide +kernel
  have hjudged : (Sample.alarmed.rules["calm"]?).map
      (fun r => Sample.judgeNewcomer.value { rule := r }) = some (.ok []) := by decide +kernel
  have hkept : (Sample.alarmed.rules["calm"]?).map
      (fun r => Sample.keptAtRoot (Sample.judgeNewcomer.after { rule := r }).rule) =
      some (some (.quantified 1 Sample.everySensor Sample.isCalm, [Sample.witness])) := by
    decide +kernel
  obtain ⟨r, n, hr, -, hn, hkeeps, hresumes⟩ := links_current Sample.build_draft
    (.added rfl hadded rfl)
  rw [show Sample.alarmed.rules["calm"]? = some r from hr] at hfalse hjudged hkept
  obtain ⟨c, hok⟩ := Routine.exists_of_value (Option.some.inj hjudged)
  have hgenerates : r.Generates Sample.alarmed.engine (.patterns ["sensor"]) [] c.rule := .batch hok
  obtain ⟨n', hn', hresumes⟩ := hresumes _ _ _ hgenerates
  have hroot : n.cell.truth = .no := by
    rw [Option.map_some, hn] at hfalse
    exact Option.some.inj (Option.some.inj hfalse)
  rw [Option.map_some, Routine.after_eq hok] at hkept
  obtain ⟨m, hm, hkept⟩ := Option.bind_eq_some_iff.mp (Option.some.inj hkept)
  obtain rfl := Option.some.inj (hn'.symm.trans hm)
  obtain ⟨f, hf, hkept⟩ := Option.bind_eq_some_iff.mp hkept
  obtain ⟨L, hL, hkept⟩ := Option.bind_eq_some_iff.mp hkept
  obtain ⟨rfl, hlist⟩ := Prod.mk.inj (Option.some.inj hkept)
  exact ⟨r, n, hr, hn, hkeeps, (hkeeps.root rfl).mpr hroot, c.rule, n', L, hgenerates, hn', hlist,
    (hresumes n' n'.mem_subtrees_self _ _ _ hf rfl L hL).1⟩

end RuleMonitor
