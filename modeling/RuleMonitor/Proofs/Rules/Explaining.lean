import RuleMonitor.Proofs.Rules.Reaching
import RuleMonitor.Proofs.Witnesses

/-!
# What witnesses say

Whatever the predicates of a registry do, a cycle that succeeds had a valid batch, and if no predicate
failed it left a sound rule. So as long as nothing failed, the witnesses of a rule that is false are
links of its formula over its facts, and each of them is enough to make the rule false.

* `Rule.valid_of_process`: a batch that is processed is valid.
* `Checker.Arrives`: the states that operations without failures lead to.
* **`Checker.witnesses_sound`**: the witnesses in these states.
-/

namespace RuleMonitor

open Std (ExtTreeMap)

/-! ## Batches that are processed -/

namespace Rule

variable {engine : Engine} {batch : List Change}

theorem takeStep_failed {e : Error} {step : Change} {o : Option Error} {c c' : Cycle}
    (h : takeStep engine (some e) step c = .ok o c') : o = some e := by
  obtain ⟨u, c₁, -, h⟩ := Routine.bind_eq_ok.mp h
  cases h
  rfl

theorem takeSteps_failed {e : Error} {steps : List Change} {o : Option Error} : ∀ {c c' : Cycle},
    takeSteps engine (some e) steps c = .ok o c' → o = some e := by
  induction steps with
  | nil =>
    intro c c' h
    cases h
    rfl
  | cons step rest ih =>
    intro c c' h
    obtain ⟨o₁, c₁, h₁, h⟩ := Routine.bind_eq_ok.mp h
    obtain rfl := takeStep_failed h₁
    exact ih h

theorem takeChanges_failed {e : Error} {o : Option Error} : ∀ {c c' : Cycle},
    takeChanges engine (some e) batch c = .ok o c' → o = some e := by
  induction batch with
  | nil =>
    intro c c' h
    cases h
    rfl
  | cons change rest ih =>
    intro c c' h
    obtain ⟨steps, c₁, -, h⟩ := Routine.bind_eq_ok.mp h
    obtain ⟨o₂, c₂, h₂, h⟩ := Routine.bind_eq_ok.mp h
    obtain rfl := takeSteps_failed h₂
    exact ih h

theorem exists_of_onFacts {α : Type} {x : Routine FactStore α} {c c' : Cycle} {a : α}
    (h : Cycle.onFacts x c = .ok a c') : ∃ facts, x c.rule.facts = .ok a facts :=
  (Routine.exists_of_onPart h).imp fun _ h => h.1

theorem isValid_of_judgeChange {change : Change} {u : Unit} {c c' : Cycle}
    (h : judgeChange engine change c = .ok u c') : change.isValid c.rule.facts.pools = true := by
  obtain ⟨u₁, c₁, h₁, h⟩ := Routine.bind_eq_ok.mp h
  cases h₁
  obtain ⟨u₂, c₂, h₂, -⟩ := Routine.bind_eq_ok.mp h
  obtain ⟨facts, h₂⟩ := exists_of_onFacts h₂
  obtain ⟨Q, hQ⟩ := FactStore.after?_of_applyBatch h₂
  exact (Pools.after?_cons_eq_some.mp hQ).1

theorem isValid_of_stepChange {change : Change} {u : Unit} {c c' : Cycle}
    (h : stepChange engine change c = .ok u c') : change.isValid c.rule.facts.pools = true := by
  rw [stepChange_eq] at h
  obtain ⟨u₁, c₁, h₁, -⟩ := Routine.bind_eq_ok.mp h
  exact isValid_of_judgeChange h₁

theorem isValid_of_steps {change : Change} {steps : List Change} {c c₁ c' : Cycle}
    (h : stepsOf change c = .ok steps c₁) (hs : takeSteps engine none steps c₁ = .ok none c') :
    change.isValid c.rule.facts.pools = true := by
  by_cases hk : change.kind = .update
  · unfold stepsOf at h
    rw [hk] at h
    dsimp only at h
    rw [Routine.get_bind] at h
    rw [Pools.isValid_iff, hk]
    cases hold : c.rule.facts.get? change.pattern change.id with
    | none =>
      simp only [hold] at h
      cases h
    | some old => exact ⟨nofun, fun _ => Option.isSome_of_eq_some hold⟩
  · have hsteps : steps = [change] ∧ c₁ = c := by
      unfold stepsOf at h
      cases hkind : change.kind with
      | update => exact absurd hkind hk
      | addition | deletion =>
        rw [hkind] at h
        cases h
        exact ⟨rfl, rfl⟩
    obtain ⟨rfl, rfl⟩ := hsteps
    obtain ⟨o, c₂, h₂, hs⟩ := Routine.bind_eq_ok.mp hs
    cases hs
    obtain ⟨o', c₃, h₃, h⟩ := Routine.bind_eq_ok.mp h₂
    rcases Routine.exists_of_attempt h₃ with ⟨u, rfl, hok⟩ | ⟨e, rfl, -⟩
    · exact isValid_of_stepChange hok
    · cases e with
      | crash e => cases h
      | error e =>
        dsimp only at h
        split_ifs at h <;> cases h

theorem valid_of_takeChanges : ∀ {c c' : Cycle}, c.rule.Upright engine →
    takeChanges engine none batch c = .ok none c' →
    ∃ Q, c.rule.facts.pools.after? batch = some Q := by
  induction batch with
  | nil => exact fun _ _ => ⟨_, rfl⟩
  | cons change rest ih =>
    intro c c' h hok
    obtain ⟨steps, c₁, h₁, hok⟩ := Routine.bind_eq_ok.mp hok
    obtain ⟨o, c₂, h₂, hok⟩ := Routine.bind_eq_ok.mp hok
    cases o with
    | some e => cases takeChanges_failed hok
    | none =>
      have hv := isValid_of_steps h₁ h₂
      obtain ⟨steps, hsteps, hk, hafter, -⟩ := stepsOf_turns h.toProper hv
      obtain ⟨c₁', h₁', hc₁⟩ := hsteps c rfl
      rw [h₁'] at h₁
      cases h₁
      by_cases he : ∀ P ∈ c.rule.facts.pools.trail steps,
          c.rule.sentence.formula.Evaluates engine.registry P ∅
      · obtain ⟨facts, tree, hturns, hP, hr⟩ := takeSteps_brings steps h hk hafter he
        obtain ⟨c₂', h₂', hc₂⟩ := hturns c₁ hc₁
        rw [h₂'] at h₂
        cases h₂
        obtain ⟨Q, hQ⟩ := ih (hc₂ ▸ hr) hok
        refine ⟨Q, Pools.after?_cons_eq_some.mpr ⟨hv, ?_⟩⟩
        rwa [hc₂, hP] at hQ
      · rcases takeSteps_handsOn (K := fun _ => True) (fun _ h => h) steps h hk hafter
          (fun P => Formula.answers_true _ P _ ∅) he with
          ⟨e, facts, tree, -, -, hturns, -⟩ | ⟨e, facts, tree, -, -, hb⟩
        · obtain ⟨c₂', h₂', -⟩ := hturns c₁ hc₁
          rw [h₂'] at h₂
          cases h₂
        · obtain ⟨c₂', h₂', -⟩ := hb c₁ hc₁
          rw [h₂'] at h₂
          cases h₂

/-- **A batch that is processed** is valid. -/
theorem valid_of_process {strategy : Strategy} {u : Unit} {c c' : Cycle} (h : c.rule.Rests engine)
    (hok : process engine strategy batch c = .ok u c') :
    ∃ Q, c.rule.facts.pools.after? batch = some Q := by
  have hfirst : ∀ {x : Unit → Routine Cycle Unit},
      (Cycle.onFacts (FactStore.applyBatch batch) >>= x) c = .ok u c' →
      ∃ Q, c.rule.facts.pools.after? batch = some Q := fun hx => by
    obtain ⟨u₁, c₁, h₁, -⟩ := Routine.bind_eq_ok.mp hx
    obtain ⟨facts, h₁⟩ := exists_of_onFacts h₁
    exact FactStore.after?_of_applyBatch h₁
  unfold process at hok
  rw [Routine.get_bind] at hok
  split_ifs at hok with hrebuild
  · exact hfirst hok
  · rw [Bool.or_eq_true, not_or, Option.isNone_iff_eq_none] at hrebuild
    have hu := (h.upright.resolve_left hrebuild.1).resolve_left hrebuild.2
    cases strategy with
    | full | fullConcurrent | batch | batchConcurrent => exact hfirst hok
    | change =>
      obtain ⟨o, c₁, h₁, hok⟩ := Routine.bind_eq_ok.mp hok
      cases o with
      | some e => cases hok
      | none => exact valid_of_takeChanges hu h₁

/-- **A cycle that succeeds**, and in which no predicate fails, leaves a sound rule. -/
theorem sound_of_cycle {strategy : Strategy} {u : Unit} {c c' : Cycle} (h : c.rule.Rests engine)
    (hok : cycle engine strategy batch c = .ok u c') (hclean : c'.rule.lastError = none) :
    c'.rule.Sound engine ∧ c'.rule.sentence = c.rule.sentence := by
  obtain ⟨outcome, c₁, h₁, hrest⟩ := Routine.bind_eq_ok.mp hok
  rcases Routine.exists_of_attempt h₁ with ⟨u', rfl, hprocess⟩ | ⟨e, rfl, -⟩
  · obtain ⟨Q, hQ⟩ := valid_of_process h hprocess
    have hends := cycle_ends (K := fun _ => True) (fun _ h => h) h hQ
      (fun P => Formula.answers_true _ P _ ∅) strategy
    cases hends with
    | succeeds r' hturns hsound hsent hpools =>
      obtain ⟨c₂, h₂, rfl⟩ := hturns c rfl
      rw [h₂] at hok
      cases hok
      exact ⟨hsound, hsent⟩
    | aborts e r' _ _ hturns _ _ _ _ herror =>
      obtain ⟨c₂, h₂, rfl⟩ := hturns c rfl
      rw [h₂] at hok
      cases hok
      cases hclean.symm.trans herror
    | stops e r' _ _ hbreaks =>
      obtain ⟨c₂, h₂, -⟩ := hbreaks c rfl
      rw [h₂] at hok
      cases hok
  · obtain ⟨u₂, c₂, -, hrest⟩ := Routine.bind_eq_ok.mp hrest
    cases e with
    | crash e => cases hrest
    | error e =>
      dsimp only at hrest
      split_ifs at hrest
      · cases hrest
        cases hclean
      · cases hrest

end Rule

namespace Checker

variable {c : Checker} {s : Sentence} {reg : Registry}

/-- Operations that succeed lead to a checker with a rule for a sentence, and no predicate failed. The
strategy may change in between, and whatever happens to other rules does not matter. -/
inductive Arrives (reg : Registry) (s : Sentence) : Checker → Prop
  | added {c c' : Checker} {facts : List Change} {report : Report} (hreg : c.registry = reg)
      (hok : addRule s facts c = .ok report c') (hclean : report.error = none) : Arrives reg s c'
  | checked {c c' : Checker} {batch : List Change} {report : Report} (hc : Arrives reg s c)
      (hok : checkBatch s.rule batch c = .ok report c') (hclean : report.error = none) :
      Arrives reg s c'
  | replaced {c c' : Checker} {r : Rule} {p : String} {del add : Context} {rep : Replacement}
      (hc : Arrives reg s c) (hr : c.rules[s.rule]? = some r)
      (hx : r.facts.pools.Exchangeable p del add)
      (hprobe : c.probe s.rule p del add = .ok (some rep)) (hok : replace rep c = .ok () c') :
      Arrives reg s c'
  | other {c c' : Checker} (hc : Arrives reg s c) (hreg : c'.registry = c.registry)
      (hmin : c'.options.minimalLinks = c.options.minimalLinks)
      (hrule : c'.rules[s.rule]? = c.rules[s.rule]?) : Arrives reg s c'

/-! ## Operations that succeed -/

theorem exists_of_onRule {α : Type} {id : String} {x : Routine Cycle α} {a : α} {c c' : Checker}
    (hok : onRule id x c = .ok a c') : ∃ r cycle, c.rules[id]? = some r ∧
      x { rule := r } = .ok a cycle ∧
      c'.bare = ({ c with rules := c.rules.insert id cycle.rule } : Checker).bare := by
  unfold onRule at hok
  cases hr : c.rules[id]? with
  | none =>
    rw [hr] at hok
    cases hok
  | some r =>
    rw [hr] at hok
    dsimp only at hok
    cases hx : x { rule := r } with
    | error e cycle =>
      rw [hx] at hok
      cases hok
    | ok b cycle =>
      rw [hx] at hok
      cases hok
      exact ⟨r, cycle, rfl, hx, rfl⟩

/-- **The rule that a successful check leaves.** -/
theorem exists_of_checkBatch {id : String} {batch : List Change} {report : Report} {c c' : Checker}
    (hok : checkBatch id batch c = .ok report c') :
    ∃ r cycle, c.rules[id]? = some r ∧
      Rule.cycle c.engine c.options.strategy batch { rule := r } = .ok ⟨⟩ cycle ∧
      report = cycle.rule.report ∧ c'.rules[id]? = some cycle.rule ∧ c'.registry = c.registry ∧
      c'.engine = c.engine := by
  unfold checkBatch at hok
  rw [Routine.get_bind] at hok
  obtain ⟨before, c₁, h₁, hok₁⟩ := Routine.bind_eq_ok.mp hok
  obtain ⟨-, rfl⟩ := Routine.ofExcept_eq_ok h₁
  obtain ⟨u₂, c₂, h₂, hok₂⟩ := Routine.bind_eq_ok.mp hok₁
  obtain ⟨u₃, c₃, h₃, hok₃⟩ := Routine.bind_eq_ok.mp hok₂
  obtain ⟨u₄, c₄, h₄, hok₄⟩ := Routine.bind_eq_ok.mp hok₃
  have hb₃ : c₃.bare = c₁.bare := ((does_noteRebuilt before c₂).unique h₃).2.trans
    ((does_enter _ c₁).unique h₂).2
  obtain ⟨r, cycle, hr, hcycle, hb₄⟩ := exists_of_onRule h₄
  rw [rules_eq_of_bare hb₃] at hr
  have hrule : c₄.rules[id]? = some cycle.rule := by
    rw [rules_eq_of_bare hb₄, ExtTreeMap.getElem?_insert_self]
  have hfind : c₄.rule id = .ok cycle.rule := by
    unfold rule
    rw [hrule]
  have hend : Does (do
      noteAborted cycle.rule
      count "cycles" 1
      count "changes" batch.length
      countFanOuts
      note .debug s!"rule `{id}` after {batch.length} change(s): {cycle.rule.status.render}"
      return cycle.rule.report) c₄ cycle.rule.report c₄ :=
    (does_noteAborted _ _).bind ((does_count _ _ _).bind ((does_count _ _ _).bind
      ((does_countFanOuts _).bind ((does_note _ _ _).bind (does_pure _ _)))))
  rw [Routine.get_bind, hfind] at hok₄
  obtain ⟨hreport, hb⟩ := hend.unique hok₄
  refine ⟨r, cycle, hr, hcycle, hreport, (rules_eq_of_bare hb).symm ▸ hrule, ?_, ?_⟩
  · rw [registry_eq_of_bare hb, registry_eq_of_bare hb₄, ← registry_eq_of_bare hb₃]
  · rw [engine_eq_of_bare hb, engine_eq_of_bare hb₄, ← engine_eq_of_bare hb₃]
    rfl

/-- **The rule that a successful registration leaves.** -/
theorem exists_of_addRule {facts : List Change} {report : Report} {c c' : Checker}
    (hok : addRule s facts c = .ok report c') :
    ∃ cycle, Rule.cycle c.engine .full (facts.filter fun f => s.mentions f.pattern)
        { rule := { sentence := s } } = .ok ⟨⟩ cycle ∧
      report = cycle.rule.report ∧ c'.rules[cycle.rule.id]? = some cycle.rule ∧
      c'.registry = c.registry ∧ c'.engine = c.engine := by
  unfold addRule at hok
  rw [Routine.get_bind] at hok
  split_ifs at hok with hnew
  · cases hok
  obtain ⟨r, c₁, h₁, hok⟩ := Routine.bind_eq_ok.mp hok
  unfold onNewRule at h₁
  cases hcycle : Rule.cycle c.engine .full (facts.filter fun f => s.mentions f.pattern)
      { rule := { sentence := s } } with
  | error e cycle =>
    rw [hcycle] at h₁
    cases h₁
  | ok u cycle =>
    rw [hcycle] at h₁
    cases h₁
    have hend : Does (do
        noteAborted cycle.rule
        note .info s!"registered rule `{cycle.rule.id}`: {cycle.rule.status.render}"
        modify fun c => { c with rules := c.rules.insert cycle.rule.id cycle.rule }
        return cycle.rule.report) (absorb cycle c) cycle.rule.report
        { absorb cycle c with rules := c.rules.insert cycle.rule.id cycle.rule } :=
      (does_noteAborted _ _).bind ((does_note _ _ _).bind ((does_modifyRules
        (fun rules => rules.insert cycle.rule.id cycle.rule) _).bind (does_pure _ _)))
    obtain ⟨hreport, hb⟩ := hend.unique hok
    refine ⟨cycle, rfl, hreport, ?_, (registry_eq_of_bare hb).trans rfl,
      (engine_eq_of_bare hb).trans rfl⟩
    rw [rules_eq_of_bare hb, ExtTreeMap.getElem?_insert_self]

/-- **The rule is sound** in every state that is reached without a failure. -/
theorem Arrives.sound (hs : s.WellFormed) (h : Arrives reg s c) :
    c.registry = reg ∧ ∃ r, c.rules[s.rule]? = some r ∧ r.Sound c.engine ∧ r.sentence = s := by
  induction h with
  | @added c c' facts report hreg hok hclean =>
    obtain ⟨cycle, hcycle, rfl, hr, hreg', he⟩ := exists_of_addRule hok
    obtain ⟨hsound, hsent⟩ := Rule.sound_of_cycle (Rule.rests_new hs c.engine) hcycle hclean
    have hid : cycle.rule.id = s.rule := congrArg (fun s => s.rule) hsent
    exact ⟨hreg'.trans hreg, cycle.rule, hid ▸ hr, he ▸ hsound, hsent⟩
  | @checked c c' batch report _ hok hclean ih =>
    obtain ⟨hreg, r, hr, hsound, hsent⟩ := ih
    obtain ⟨r', cycle, hr', hcycle, rfl, hr'', hreg', he⟩ := exists_of_checkBatch hok
    obtain rfl := Option.some.inj (hr.symm.trans hr')
    obtain ⟨hsound', hsent'⟩ := Rule.sound_of_cycle hsound.rests hcycle hclean
    exact ⟨hreg'.trans hreg, cycle.rule, hr'', he ▸ hsound', hsent'.trans hsent⟩
  | @replaced c c' r₀ p del add rep _ hr₀ hx hprobe hok ih =>
    obtain ⟨hreg, r, hr, hsound, rfl⟩ := ih
    obtain rfl := Option.some.inj (hr.symm.trans hr₀)
    obtain ⟨r', hdoes, hr', hsent, -⟩ := replace_does hr hsound hx
      (suits_of_probe hr hsound hx.live hprobe)
    obtain ⟨c₁, h₁, hb⟩ := hdoes c rfl
    rw [h₁] at hok
    cases hok
    obtain ⟨r'', hr'', hs'', hsent'', -⟩ := monitors_insert hb hr' hsent rfl
    exact ⟨(registry_eq_of_bare hb).trans hreg, r'', hr'', hs'', hsent''⟩
  | @other c c' _ hreg hmin hrule ih =>
    have he : c'.engine = c.engine := by
      unfold engine
      rw [hreg, hmin]
    rw [hreg, hrule, he]
    exact ih

/-- **Witnesses are sound.** If a rule is false after operations without failures, every witness binds
variables of its formula to live contexts of their patterns, and over the pools where these patterns
are narrowed to the contexts bound the formula is still false. -/
theorem witnesses_sound {d : Draft} {root : Nat} (hs : d.build root = .ok s) (h : Arrives reg s c) :
    ∃ r, c.rules[s.rule]? = some r ∧ r.sentence = s ∧ (r.status.truth = .no →
      ∀ w ∈ r.status.witnesses,
        (∀ (v : String) (id : Nat), w.bindings[v]? = some id →
          ∃ p, s.patternOf? v = some p ∧ (r.facts.pools.live? p id).isSome = true) ∧
        s.formula.truth reg (s.narrow w r.facts.pools) ∅ = .ok false) := by
  have hw := Sentence.wellFormed_of_build hs
  obtain ⟨rfl, r, hr, hsound, rfl⟩ := h.sound hw
  refine ⟨r, hr, rfl, fun hno w hmem => ?_⟩
  rw [hsound.status] at hno hmem
  have hfalse : r.sentence.formula.holds c.engine.registry r.facts.pools ∅ = false :=
    Truth.eq_false_of_ofBool hno
  unfold Formula.status at hmem
  rw [hfalse] at hmem
  have hlink : w ∈ r.sentence.formula.links c.engine.registry r.facts.pools ∅ :=
    LinkSet.mem_of_mem_minimal hmem
  obtain ⟨hlive, htruth⟩ := hw.links_sound hsound.keyed hsound.evaluates hlink
  exact ⟨hlive, htruth.trans (congrArg _ hfalse)⟩

end Checker

namespace Sample

/-- A rule registered over a sensor that is not calm. -/
def alarmed : Checker :=
  (Checker.addRule sentence [change .addition 0 "1"]).after checker

/-- A rule registered over two sensors, the first of which is not calm. -/
def divided : Checker :=
  (Checker.addRule sentence [change .addition 0 "1", change .addition 1 "0"]).after checker

/-- The sensor that is not calm is a witness. -/
def witness : Link :=
  ⟨.violated, (∅ : Bindings).insert "x" 0⟩

end Sample

/-- The witness takes the calm sensor out of the pools, and the rule is still false. -/
theorem Checker.witnesses_sound_sample : ∃ r, Sample.divided.rules["calm"]? = some r ∧
    r.status = ⟨.no, [Sample.witness]⟩ ∧
    (∀ (v : String) (id : Nat), Sample.witness.bindings[v]? = some id →
      ∃ p, Sample.sentence.patternOf? v = some p ∧ (r.facts.pools.live? p id).isSome = true) ∧
    (r.facts.pools.live? "sensor" 1).isSome = true ∧
    (Sample.sentence.narrow Sample.witness r.facts.pools).live? "sensor" 1 = none ∧
    Sample.sentence.formula.truth Sample.registry
      (Sample.sentence.narrow Sample.witness r.facts.pools) ∅ = .ok false := by
  have hvalue : (Checker.addRule Sample.sentence
      [Sample.change .addition 0 "1", Sample.change .addition 1 "0"]).value Sample.checker =
        .ok ⟨"calm", ⟨.no, [Sample.witness]⟩, none⟩ := by
    decide +kernel
  have hrule : (Sample.divided.rules["calm"]?).map (fun r => (r.status,
      (r.facts.pools.live? "sensor" 1).isSome,
      (Sample.sentence.narrow Sample.witness r.facts.pools).live? "sensor" 1)) =
        some (⟨.no, [Sample.witness]⟩, true, none) := by
    decide +kernel
  have harrives : Arrives Sample.registry Sample.sentence Sample.divided := by
    obtain ⟨c, hok⟩ := Routine.exists_of_value hvalue
    rw [Sample.divided, Routine.after_eq hok]
    exact .added rfl hok rfl
  obtain ⟨r, hr, -, hsound⟩ := witnesses_sound Sample.build_draft harrives
  rw [show Sample.divided.rules["calm"]? = some r from hr] at hrule
  obtain ⟨hstatus, hpools⟩ := Prod.mk.inj (Option.some.inj hrule)
  obtain ⟨hlive, hnarrow⟩ := Prod.mk.inj hpools
  change r.status = _ at hstatus
  rw [hstatus] at hsound
  obtain ⟨hbindings, htruth⟩ := hsound rfl Sample.witness List.mem_cons_self
  exact ⟨r, hr, hstatus, hbindings, hlive, hnarrow, htruth⟩

end RuleMonitor
