import RuleMonitor.Checker
import RuleMonitor.Proofs.Rules.Cycles

/-!
# Checking rules

A checker keeps accounts of its work, which nothing depends on. Up to these, a rule that is registered
over facts, or checked on a valid batch, is sound afterwards, and what is reported is what its formula
says about the pools.

* `Checker.Does`, `Checker.Stops`, `Checker.Falls`: a part of the work that succeeds, or fails, up to
  the accounts.
* `Checker.Monitors`: a rule is sound and has some pools.
* **`Checker.addRule_does`**, **`Checker.checkBatch_does`**: the operations.
* **`Checker.strategies_agree`**: whatever the strategy, a history has the reports that evaluation from
  scratch has.
-/

namespace RuleMonitor

open Std (ExtTreeMap)

theorem Rule.Sound.report {engine : Engine} {r : Rule} (h : r.Sound engine) :
    r.report = ⟨r.sentence.rule, r.sentence.formula.status engine.registry r.facts.pools, none⟩ := by
  unfold Rule.report
  rw [h.noError, h.status]
  rfl

namespace Checker

/-! ## Accounts -/

/-- The checker without the accounts of its work. -/
def bare (c : Checker) : Checker :=
  { c with fanOuts := 0, counters := ∅, phases := ∅, notes := #[] }

/-- A part of the work succeeds with a value and makes one checker of another, up to the accounts. -/
def Does {α : Type} (x : Routine Checker α) (c : Checker) (a : α) (c' : Checker) : Prop :=
  ∀ d : Checker, d.bare = c.bare → ∃ d', x d = .ok a d' ∧ d'.bare = c'.bare

variable {α β : Type} {c c₁ c₂ : Checker} {a : α} {b : β}

theorem options_eq_of_bare {d : Checker} (h : d.bare = c.bare) : d.options = c.options := by
  simpa [bare] using congrArg options h

theorem registry_eq_of_bare {d : Checker} (h : d.bare = c.bare) : d.registry = c.registry := by
  simpa [bare] using congrArg registry h

theorem rules_eq_of_bare {d : Checker} (h : d.bare = c.bare) : d.rules = c.rules := by
  simpa [bare] using congrArg rules h

theorem engine_eq_of_bare {d : Checker} (h : d.bare = c.bare) : d.engine = c.engine := by
  unfold engine
  rw [options_eq_of_bare h, registry_eq_of_bare h]

theorem bare_setRules {d : Checker} (h : d.bare = c.bare) (rules : ExtTreeMap String Rule) :
    ({ d with rules } : Checker).bare = ({ c with rules } : Checker).bare := by
  unfold bare
  simp only [options_eq_of_bare h, registry_eq_of_bare h]

theorem does_pure (a : α) (c : Checker) : Does (pure a) c a c :=
  fun d hd => ⟨d, rfl, hd⟩

theorem Does.bind {x : Routine Checker α} {f : α → Routine Checker β} (hx : Does x c a c₁)
    (hf : Does (f a) c₁ b c₂) : Does (x >>= f) c b c₂ := fun d hd => by
  obtain ⟨d₁, h₁, hd₁⟩ := hx d hd
  obtain ⟨d₂, h₂, hd₂⟩ := hf d₁ hd₁
  exact ⟨d₂, by rw [Routine.bind_ok h₁, h₂], hd₂⟩

theorem Does.unique {x : Routine Checker α} {c' : Checker} (h : Does x c a c₁)
    {b : α} (hok : x c = .ok b c') : b = a ∧ c'.bare = c₁.bare := by
  obtain ⟨d, hd, hb⟩ := h c rfl
  rw [hd] at hok
  cases hok
  exact ⟨rfl, hb⟩

theorem does_get {f : Checker → Routine Checker β}
    (hf : ∀ d : Checker, d.bare = c.bare → Does (f d) c b c₂) : Does (get >>= f) c b c₂ :=
  fun d hd => hf d hd d hd

theorem does_ofExcept {x : Except Failure α} (hx : x = .ok a) (c : Checker) :
    Does (Routine.ofExcept x) c a c :=
  fun d hd => ⟨d, Routine.ofExcept_ok hx d, hd⟩

theorem does_note (level : NoteLevel) (text : String) (c : Checker) :
    Does (note level text) c ⟨⟩ c :=
  fun _ hd => ⟨_, rfl, hd⟩

theorem does_count (name : String) (n : Nat) (c : Checker) : Does (count name n) c ⟨⟩ c :=
  fun _ hd => ⟨_, rfl, hd⟩

theorem does_enter (phase : Phase) (c : Checker) : Does (enter phase) c ⟨⟩ c :=
  fun _ hd => ⟨_, rfl, hd⟩

theorem does_countFanOuts (c : Checker) : Does countFanOuts c ⟨⟩ c :=
  fun _ hd => ⟨_, rfl, hd⟩

theorem does_noteAborted (r : Rule) (c : Checker) : Does (noteAborted r) c ⟨⟩ c := by
  unfold noteAborted
  split
  · exact does_note _ _ c
  · exact does_pure _ c

theorem does_noteRebuilt (r : Rule) (c : Checker) : Does (noteRebuilt r) c ⟨⟩ c := by
  unfold noteRebuilt
  split
  · exact (does_count _ _ c).bind (does_note _ _ c)
  · exact does_pure _ c

theorem does_modifyRules (f : ExtTreeMap String Rule → ExtTreeMap String Rule) (c : Checker) :
    Does (modify fun c => { c with rules := f c.rules }) c ⟨⟩ { c with rules := f c.rules } :=
  fun d hd => ⟨{ d with rules := f d.rules }, rfl, rules_eq_of_bare hd ▸ bare_setRules hd _⟩

theorem does_onRule {id : String} {r r' : Rule} {x : Routine Cycle α} (hr : c.rules[id]? = some r)
    (hx : Cycle.Turns x r a r') :
    Does (onRule id x) c a { c with rules := c.rules.insert id r' } := fun d hd => by
  obtain ⟨cycle, hok, rfl⟩ := hx { rule := r } rfl
  have hrules := rules_eq_of_bare hd
  refine ⟨{ absorb cycle d with rules := d.rules.insert id cycle.rule }, ?_, ?_⟩
  · unfold onRule
    rw [hrules, hr]
    simp only [hok]
  · rw [hrules]
    exact bare_setRules (d := absorb cycle d) hd _

theorem does_onNewRule {r r' : Rule} {x : Routine Cycle Unit} (hx : Cycle.Turns x r ⟨⟩ r')
    (c : Checker) : Does (onNewRule r x) c r' c := fun d hd => by
  obtain ⟨cycle, hok, rfl⟩ := hx { rule := r } rfl
  refine ⟨absorb cycle d, ?_, hd⟩
  unfold onNewRule
  rw [hok]

/-! ## Operations -/

theorem does_addRule {s : Sentence} {facts : List Change} {r : Rule}
    (hnew : c.rules.contains s.rule = false)
    (h : Cycle.Turns (Rule.cycle c.engine .full (facts.filter fun f => s.mentions f.pattern))
      { sentence := s } ⟨⟩ r) (hs : r.sentence = s) :
    Does (addRule s facts) c r.report { c with rules := c.rules.insert s.rule r } := by
  have hid : r.id = s.rule := congrArg (fun s => s.rule) hs
  refine does_get fun c₀ hc => ?_
  rw [rules_eq_of_bare hc, engine_eq_of_bare hc, if_neg (by rw [hnew]; exact Bool.false_ne_true)]
  refine (does_onNewRule h c).bind ((does_noteAborted r c).bind ((does_note _ _ c).bind ?_))
  rw [← hid]
  exact (does_modifyRules (fun rules => rules.insert r.id r) c).bind (does_pure _ _)

theorem does_checkBatch {id : String} {r r' : Rule} {batch : List Change}
    (hr : c.rules[id]? = some r)
    (h : Cycle.Turns (Rule.cycle c.engine c.options.strategy batch) r ⟨⟩ r') :
    Does (checkBatch id batch) c r'.report { c with rules := c.rules.insert id r' } := by
  let c' : Checker := { c with rules := c.rules.insert id r' }
  refine does_get fun d hd => ?_
  have hd₁ : d.rule id = .ok r := by
    unfold rule
    rw [rules_eq_of_bare hd, hr]
  refine (does_ofExcept hd₁ c).bind ((does_enter _ c).bind ((does_noteRebuilt r c).bind ?_))
  rw [engine_eq_of_bare hd, options_eq_of_bare hd]
  refine (does_onRule hr h).bind (does_get fun d' hd' => ?_)
  have hd₂ : d'.rule id = .ok r' := by
    unfold rule
    rw [rules_eq_of_bare hd', ExtTreeMap.getElem?_insert_self]
  refine (does_ofExcept hd₂ c').bind ((does_noteAborted r' c').bind ?_)
  refine (does_count _ _ c').bind ((does_count _ _ c').bind ?_)
  exact (does_countFanOuts c').bind ((does_note _ _ c').bind (does_pure _ c'))

/-! ## Work that fails -/

/-- A part of the work fails and makes one checker of another, up to the accounts. -/
def Stops {α : Type} (x : Routine Checker α) (c : Checker) (e : Failure) (c' : Checker) : Prop :=
  ∀ d : Checker, d.bare = c.bare → ∃ d', x d = .error e d' ∧ d'.bare = c'.bare

variable {e : Failure}

theorem Stops.unique {x : Routine Checker α} {e' : Failure} {c' : Checker} (h : Stops x c e c₁)
    (herror : x c = .error e' c') : e' = e ∧ c'.bare = c₁.bare := by
  obtain ⟨d, hd, hb⟩ := h c rfl
  rw [hd] at herror
  cases herror
  exact ⟨rfl, hb⟩

theorem Stops.ne_ok {x : Routine Checker α} (h : Stops x c e c₁) (a : α) (c' : Checker) :
    x c ≠ .ok a c' := by
  obtain ⟨d, hd, -⟩ := h c rfl
  rw [hd]
  nofun

theorem Does.ne_error {x : Routine Checker α} (h : Does x c a c₁) (e : Failure) (c' : Checker) :
    x c ≠ .error e c' := by
  obtain ⟨d, hd, -⟩ := h c rfl
  rw [hd]
  nofun

/-- A part of the work fails with a failure of some kind that is more than a predicate that failed. -/
abbrev Falls {α : Type} (K : Failure → Prop) (x : Routine Checker α) (c : Checker) : Prop :=
  Routine.Falls bare (Failure.Serious K) x c

theorem Stops.falls {x : Routine Checker α} {K : Failure → Prop} (h : Stops x c e c₁)
    (he : Failure.Serious K e) : Falls K x c := fun d hd => by
  obtain ⟨d', herror, -⟩ := h d hd
  exact ⟨e, d', herror, he⟩

theorem Does.bind_falls {x : Routine Checker α} {f : α → Routine Checker β} {K : Failure → Prop}
    (hx : Does x c a c₁) (hf : Falls K (f a) c₁) : Falls K (x >>= f) c := fun d hd => by
  obtain ⟨d₁, h₁, hd₁⟩ := hx d hd
  obtain ⟨e, d₂, h₂, he⟩ := hf d₁ hd₁
  exact ⟨e, d₂, by rw [Routine.bind_ok h₁, h₂], he⟩

theorem Stops.bind {x : Routine Checker α} (hx : Stops x c e c₁) (f : α → Routine Checker β) :
    Stops (x >>= f) c e c₁ := fun d hd => by
  obtain ⟨d₁, h₁, hd₁⟩ := hx d hd
  exact ⟨d₁, Routine.bind_error h₁, hd₁⟩

theorem Does.bind_stops {x : Routine Checker α} {f : α → Routine Checker β} (hx : Does x c a c₁)
    (hf : Stops (f a) c₁ e c₂) : Stops (x >>= f) c e c₂ := fun d hd => by
  obtain ⟨d₁, h₁, hd₁⟩ := hx d hd
  obtain ⟨d₂, h₂, hd₂⟩ := hf d₁ hd₁
  exact ⟨d₂, by rw [Routine.bind_ok h₁, h₂], hd₂⟩

theorem stops_get {f : Checker → Routine Checker β}
    (hf : ∀ d : Checker, d.bare = c.bare → Stops (f d) c e c₂) : Stops (get >>= f) c e c₂ :=
  fun d hd => hf d hd d hd

theorem stops_throw (e : Failure) (c : Checker) : Stops (throw e : Routine Checker α) c e c :=
  fun d hd => ⟨d, rfl, hd⟩

theorem stops_onRule {id : String} {r r' : Rule} {x : Routine Cycle α} (hr : c.rules[id]? = some r)
    (hx : Cycle.Breaks x r e r') :
    Stops (onRule id x) c e { c with rules := c.rules.insert id r' } := fun d hd => by
  obtain ⟨cycle, herror, rfl⟩ := hx { rule := r } rfl
  have hrules := rules_eq_of_bare hd
  refine ⟨{ absorb cycle d with rules := d.rules.insert id cycle.rule }, ?_, ?_⟩
  · unfold onRule
    rw [hrules, hr]
    simp only [herror]
  · rw [hrules]
    exact bare_setRules (d := absorb cycle d) hd _

theorem stops_onNewRule {r r' : Rule} {x : Routine Cycle Unit} (hx : Cycle.Breaks x r e r')
    (c : Checker) : Stops (onNewRule r x) c e c := fun d hd => by
  obtain ⟨cycle, herror, rfl⟩ := hx { rule := r } rfl
  refine ⟨absorb cycle d, ?_, hd⟩
  unfold onNewRule
  rw [herror]

/-! ## Operations that fail -/

theorem stops_addRule_of_contains {s : Sentence} (h : c.rules.contains s.rule = true)
    (facts : List Change) :
    Stops (addRule s facts) c (.of (.rule s.rule "rule is defined twice")) c := by
  refine stops_get fun d hd => ?_
  rw [rules_eq_of_bare hd, if_pos h]
  exact (stops_throw _ c).bind _

theorem stops_addRule {s : Sentence} {facts : List Change} {r : Rule}
    (hnew : c.rules.contains s.rule = false)
    (h : Cycle.Breaks (Rule.cycle c.engine .full (facts.filter fun f => s.mentions f.pattern))
      { sentence := s } e r) :
    Stops (addRule s facts) c e c := by
  refine stops_get fun d hd => ?_
  rw [rules_eq_of_bare hd, engine_eq_of_bare hd, if_neg (by rw [hnew]; exact Bool.false_ne_true)]
  exact (stops_onNewRule h c).bind _

theorem stops_checkBatch_of_unknown {id : String} (h : c.rules[id]? = none) (batch : List Change) :
    Stops (checkBatch id batch) c (unknownRule id) c := by
  refine stops_get fun d hd => ?_
  have hd' : d.rule id = .error (unknownRule id) := by
    unfold rule
    rw [rules_eq_of_bare hd, h]
  rw [hd']
  exact (stops_throw _ c).bind _

theorem stops_checkBatch {id : String} {r r' : Rule} {batch : List Change}
    (hr : c.rules[id]? = some r)
    (h : Cycle.Breaks (Rule.cycle c.engine c.options.strategy batch) r e r') :
    Stops (checkBatch id batch) c e { c with rules := c.rules.insert id r' } := by
  refine stops_get fun d hd => ?_
  have hd₁ : d.rule id = .ok r := by
    unfold rule
    rw [rules_eq_of_bare hd, hr]
  refine (does_ofExcept hd₁ c).bind_stops ((does_enter _ c).bind_stops
    ((does_noteRebuilt r c).bind_stops ?_))
  rw [engine_eq_of_bare hd, options_eq_of_bare hd]
  exact (stops_onRule hr h).bind _

/-! ## Rules that stay sound -/

/-- The checker has a sound rule with a sentence over pools. -/
def Monitors (c : Checker) (s : Sentence) (P : Pools) : Prop :=
  ∃ r, c.rules[s.rule]? = some r ∧ r.Sound c.engine ∧ r.sentence = s ∧ r.facts.pools = P

theorem Monitors.congr {s : Sentence} {P : Pools} {c c' : Checker} (h : c.Monitors s P)
    (hr : c'.rules[s.rule]? = c.rules[s.rule]?) (he : c'.engine = c.engine) : c'.Monitors s P := by
  obtain ⟨r, hc, hs, hsent, hP⟩ := h
  exact ⟨r, hr.trans hc, he ▸ hs, hsent, hP⟩

theorem monitors_insert {s : Sentence} {P : Pools} {r : Rule} {c' : Checker}
    {rules : ExtTreeMap String Rule}
    (hb : c'.bare = ({ c with rules := rules.insert s.rule r } : Checker).bare)
    (hs : r.Sound c.engine) (hsent : r.sentence = s) (hP : r.facts.pools = P) : c'.Monitors s P := by
  refine ⟨r, ?_, ?_, hsent, hP⟩
  · rw [rules_eq_of_bare hb, ExtTreeMap.getElem?_insert_self]
  · rw [engine_eq_of_bare hb]
    exact hs

/-- **A rule that is registered** over valid facts is sound. -/
theorem addRule_does {s : Sentence} {facts : List Change} {P : Pools}
    (hnew : c.rules.contains s.rule = false) (hs : s.WellFormed)
    (hd : c.registry.Decides s.formula)
    (hP : (∅ : Pools).after? (facts.filter fun f => s.mentions f.pattern) = some P) :
    ∃ r, Does (addRule s facts) c ⟨s.rule, s.formula.status c.registry P, none⟩
        { c with rules := c.rules.insert s.rule r } ∧
      r.Sound c.engine ∧ r.sentence = s ∧ r.facts.pools = P := by
  obtain ⟨r, hturns, hr, rfl, rfl⟩ := Rule.cycle_turns (Rule.rests_new hs c.engine) hd hP .full
  exact ⟨r, hr.report ▸ does_addRule hnew hturns rfl, hr, rfl, rfl⟩

/-- **A rule that is checked** on a valid batch stays sound. -/
theorem checkBatch_does {id : String} {r : Rule} {batch : List Change} {Q : Pools}
    (hr : c.rules[id]? = some r) (hs : r.Sound c.engine)
    (hd : c.registry.Decides r.sentence.formula) (hQ : r.facts.pools.after? batch = some Q) :
    ∃ r', Does (checkBatch id batch) c ⟨r.id, r.sentence.formula.status c.registry Q, none⟩
        { c with rules := c.rules.insert id r' } ∧
      r'.Sound c.engine ∧ r'.sentence = r.sentence ∧ r'.facts.pools = Q := by
  obtain ⟨r', hturns, hr', hsent, rfl⟩ := Rule.cycle_turns hs.rests hd hQ c.options.strategy
  have hdoes := does_checkBatch hr hturns
  rw [hr'.report, hsent] at hdoes
  exact ⟨r', hdoes, hr', hsent, rfl⟩

end Checker

/-! ## Histories -/

/-- The pools after each batch, if each is valid after those before it. -/
def Pools.afterEach? (P : Pools) : List (List Change) → Option (List Pools)
  | [] => some []
  | batch :: rest => do
    let Q ← P.after? batch
    let Qs ← Q.afterEach? rest
    return Q :: Qs

/-- The report on a sentence that is evaluated over pools from scratch. -/
def Sentence.reportOver (s : Sentence) (r : Registry) (P : Pools) : Except Failure Report := do
  let truth ← s.formula.truth r P ∅
  let witnesses ← s.formula.witnesses r P
  return ⟨s.rule, ⟨.ofBool truth, witnesses⟩, none⟩

theorem Sentence.reportOver_eq {s : Sentence} {r : Registry} {P : Pools}
    (h : s.formula.Evaluates r P ∅) :
    s.reportOver r P = .ok ⟨s.rule, s.formula.status r P, none⟩ := by
  obtain ⟨b, links, ht, hw, hs⟩ := Formula.status_eq h
  unfold reportOver
  rw [ht, hw, hs]
  rfl

namespace Checker

variable {c : Checker}

/-- Checks a rule on one batch after the other. -/
def checkAll (id : String) : List (List Change) → Routine Checker (List Report)
  | [] => return []
  | batch :: rest => do
    let report ← checkBatch id batch
    let reports ← checkAll id rest
    return report :: reports

/-- Registers a sentence over facts, and checks it on one batch after the other. -/
def history (s : Sentence) (facts : List Change) (batches : List (List Change)) :
    Routine Checker (List Report) := do
  let report ← addRule s facts
  let reports ← checkAll s.rule batches
  return report :: reports

theorem checkAll_does {id : String} (batches : List (List Change)) : ∀ {c : Checker} {r : Rule}
    {pools : List Pools}, c.rules[id]? = some r → r.Sound c.engine →
    c.registry.Decides r.sentence.formula → r.facts.pools.afterEach? batches = some pools →
    ∃ c', Does (checkAll id batches) c
      (pools.map fun Q => ⟨r.id, r.sentence.formula.status c.registry Q, none⟩) c' := by
  induction batches with
  | nil =>
    intro c r pools _ _ _ hv
    cases hv
    exact ⟨c, does_pure _ c⟩
  | cons batch rest ih =>
    intro c r pools hr hs hd hv
    obtain ⟨Q, hQ, hv⟩ := Option.bind_eq_some_iff.mp hv
    obtain ⟨Qs, hQs, hv⟩ := Option.bind_eq_some_iff.mp hv
    cases hv
    obtain ⟨r', hcheck, hs', hsent, rfl⟩ := checkBatch_does hr hs hd hQ
    obtain ⟨c', hrest⟩ := ih (c := { c with rules := c.rules.insert id r' })
      ExtTreeMap.getElem?_insert_self hs' (hsent ▸ hd) hQs
    have hid : r'.id = r.id := congrArg (fun s => s.rule) hsent
    rw [hid, hsent] at hrest
    exact ⟨c', hcheck.bind (hrest.bind (does_pure _ c'))⟩

theorem history_does {s : Sentence} {facts : List Change} {batches : List (List Change)}
    {pools : List Pools} (hnew : c.rules.contains s.rule = false) (hs : s.WellFormed)
    (hd : c.registry.Decides s.formula)
    (hv : (∅ : Pools).afterEach? (facts.filter (fun f => s.mentions f.pattern) :: batches) =
      some pools) :
    ∃ c', Does (history s facts batches) c
      (pools.map fun Q => ⟨s.rule, s.formula.status c.registry Q, none⟩) c' := by
  obtain ⟨P, hP, hv⟩ := Option.bind_eq_some_iff.mp hv
  obtain ⟨Qs, hQs, hv⟩ := Option.bind_eq_some_iff.mp hv
  cases hv
  obtain ⟨r, hadd, hr, hsent, rfl⟩ := addRule_does hnew hs hd hP
  obtain ⟨c', hrest⟩ := checkAll_does batches (c := { c with rules := c.rules.insert s.rule r })
    ExtTreeMap.getElem?_insert_self hr (hsent ▸ hd) hQs
  have hid : r.id = s.rule := congrArg (fun s => s.rule) hsent
  rw [hid, hsent] at hrest
  exact ⟨c', hadd.bind (hrest.bind (does_pure _ c'))⟩

/-- A checker that rebuilds every instantiation in each cycle, and keeps all links. -/
def fromScratch (r : Registry) : Checker where
  options := { strategy := .full, minimalLinks := false }
  registry := r

/-- **All strategies agree.** If the predicates of a sentence never fail, a history of valid batches
succeeds whatever the strategy and whether or not links are kept minimal, and it has the reports that
rebuilding has, which are those of the formula over the pools at the time. -/
theorem strategies_agree {d : Draft} {root : Nat} {s : Sentence} (hs : d.build root = .ok s)
    (hd : c.registry.Decides s.formula) (hnew : c.rules.contains s.rule = false)
    {facts : List Change} {batches : List (List Change)} {pools : List Pools}
    (hv : (∅ : Pools).afterEach? (facts.filter (fun f => s.mentions f.pattern) :: batches) =
      some pools) :
    ∃ reports, (∃ c', history s facts batches c = .ok reports c') ∧
      (∃ c', history s facts batches (fromScratch c.registry) = .ok reports c') ∧
      pools.mapM (s.reportOver c.registry) = .ok reports := by
  have hw := Sentence.wellFormed_of_build hs
  obtain ⟨c', hc'⟩ := history_does hnew hw hd hv
  obtain ⟨c₁, h₁, -⟩ := hc' c rfl
  have hempty : (fromScratch c.registry).rules.contains s.rule = false :=
    ExtTreeMap.contains_empty
  obtain ⟨c'', hc''⟩ := history_does (c := fromScratch c.registry) hempty hw hd hv
  obtain ⟨c₂, h₂, -⟩ := hc'' (fromScratch c.registry) rfl
  exact ⟨_, ⟨c₁, h₁⟩, ⟨c₂, h₂⟩,
    Formula.mapM_ok fun Q _ => Sentence.reportOver_eq (hw.evaluates hd Q)⟩

end Checker

/-! ## A sample -/

namespace Sample

/-- Every sensor is calm. -/
def draft : Draft where
  rule := "calm"
  nodes := [.application ⟨"calm", [("v1", "x")]⟩,
    .quantified { kind := .universal, var := "x", pattern := "sensor" } 0]

/-- The sentence of the draft. -/
def sentence : Sentence :=
  { draft with
    root := 1
    formula := .quantified 1 { kind := .universal, var := "x", pattern := "sensor" }
      (.application 0 ⟨"calm", [("v1", "x")]⟩) }

/-- The contexts are in the state `0`. -/
def calm : Predicate := fun args =>
  .ok (args.params.all fun p => p.2.attribute? "state" = some "0")

/-- A registry with the predicate of the sentence. -/
def registry : Registry :=
  ({} : Registry).register "calm" calm

/-- A checker that processes batches at once. -/
def checker : Checker where
  options := { strategy := .batch }
  registry := registry

/-- A change of a sensor. -/
def change (kind : ChangeKind) (id : Nat) (state : String) : Change :=
  ⟨kind, "sensor", id, (∅ : Attributes).insert "state" state⟩

theorem build_draft : draft.build 1 = .ok sentence := rfl

theorem registry_decides : registry.Decides sentence.formula := by
  intro a ha
  obtain rfl := List.mem_singleton.mp ha
  refine ⟨calm, ?_, fun contexts _ => ⟨_, rfl⟩⟩
  unfold Registry.find? registry Registry.register
  rw [ExtTreeMap.getElem?_insert_self]

end Sample

theorem Checker.strategies_agree_sample : ∃ reports,
    (∃ c', history Sample.sentence [Sample.change .addition 0 "0"]
      [[Sample.change .update 0 "1", Sample.change .addition 1 "0"]]
      Sample.checker = .ok reports c') ∧
    (∃ c', history Sample.sentence [Sample.change .addition 0 "0"]
      [[Sample.change .update 0 "1", Sample.change .addition 1 "0"]]
      (fromScratch Sample.registry) = .ok reports c') ∧
    [(∅ : Pools).step (Sample.change .addition 0 "0"),
      (((∅ : Pools).step (Sample.change .addition 0 "0")).step (Sample.change .update 0 "1")).step
        (Sample.change .addition 1 "0")].mapM (Sample.sentence.reportOver Sample.registry) =
      .ok reports :=
  strategies_agree (c := Sample.checker) Sample.build_draft Sample.registry_decides
    ExtTreeMap.contains_empty rfl

end RuleMonitor
