import RuleMonitor.Proofs.Rules.Checking

/-!
# Rules that recover

A predicate that fails is contained in its rule. The batch that it failed on is reported with an error
and reaches the facts as a whole, the status stays as it was, and the next batch rebuilds the
instantiation, so that nothing of what the failed cycle left behind is ever looked at.

* `Registry.FailsLocally`: predicates fail with nothing but errors of their own.
* `Rule.Tenable`, **`Rule.cycle_recovers`**: what a cycle leaves.
* `Checker.Checks`: the states that valid batches lead to, whether or not predicates fail.
* **`Checker.checkBatch_recovers`**: the next batch in any of these states.
-/

namespace RuleMonitor

open Std (ExtTreeMap)

/-! ## Failures of predicates -/

/-- The predicates fail with nothing but errors that are local to a rule. -/
def Registry.FailsLocally (r : Registry) : Prop :=
  ∀ (name : String) (p : Predicate), r.predicates[name]? = some p →
    ∀ args e, p args = .error e → e.isPredicate = true

theorem bind_eq_error {α β : Type} {x : Except Failure α} {f : α → Except Failure β} {e : Failure}
    (h : x >>= f = .error e) : x = .error e ∨ ∃ a, x = .ok a ∧ f a = .error e := by
  cases x with
  | ok a => exact .inr ⟨a, rfl, h⟩
  | error e' => exact .inl (congrArg Except.error (Except.error.inj h))

theorem Arguments.context_error {args : Arguments} {position : String} {e : Failure}
    (h : args.context position = .error e) : e.isPredicate = true := by
  unfold context at h
  split at h
  · cases h
  · cases h
    rfl

theorem Arguments.text_error {args : Arguments} {position name : String} {e : Failure}
    (h : args.text position name = .error e) : e.isPredicate = true := by
  rcases bind_eq_error h with h | ⟨c, -, h⟩
  · exact context_error h
  · split at h
    · cases h
    · cases h
      rfl

theorem Arguments.texts_error {args : Arguments} {first second name name' : String}
    {test : String → String → Bool} {e : Failure}
    (h : (do
      let a ← args.text first name
      let b ← args.text second name'
      return test a b) = Except.error e) : e.isPredicate = true := by
  rcases bind_eq_error h with h | ⟨a, -, h⟩
  · exact text_error h
  rcases bind_eq_error h with h | ⟨b, -, h⟩
  · exact text_error h
  · cases h

theorem Family.test_error {family : Family} {args : Arguments} {e : Failure}
    (h : family.test args = .error e) : e.isPredicate = true := by
  cases family with
  | equalConst name value =>
    rcases bind_eq_error h with h | ⟨a, -, h⟩
    · exact Arguments.text_error h
    · cases h
  | equal first second => exact Arguments.texts_error h

/-- The predicates that a formula applies fail in some ways, and those found by their name, locally. -/
theorem Registry.failsIn_of_applications {r : Registry} {K : Failure → Prop} {f : Formula}
    (hK : ∀ e : Failure, e.isPredicate = true → K e)
    (h : ∀ a ∈ f.applications, ∀ p, r.predicates[a.name]? = some p → ∀ args e, p args = .error e → K e) :
    r.FailsIn K f := by
  intro a ha env hv e he
  obtain ⟨contexts, hc, -⟩ := resolve_ok a.name hv
  unfold eval at he
  rw [hc] at he
  cases hp : r.predicates[a.name]? with
  | some p =>
    have hfind : r.find? a.name = some p := by
      unfold find?
      rw [hp]
    rw [hfind] at he
    exact h a ha p hp _ _ he
  | none =>
    have hfind : r.find? a.name = (Family.ofName? a.name).map Family.test := by
      unfold find?
      rw [hp]
    rw [hfind] at he
    cases hf : Family.ofName? a.name with
    | none =>
      rw [hf] at he
      cases he
      exact hK _ rfl
    | some family =>
      rw [hf] at he
      exact hK e (Family.test_error he)

theorem Registry.FailsLocally.failsIn {r : Registry} (h : r.FailsLocally) (f : Formula) :
    r.FailsIn (fun e => e.isPredicate = true) f :=
  failsIn_of_applications (fun _ h => h) fun a _ p hp => h a.name p hp

/-! ## Reachable states -/

namespace Rule

variable {engine : Engine} {r : Rule} {Q : Pools} {batch : List Change}

/-- The rule is sound, or waits to be rebuilt because there are failures of a kind. -/
def Tenable (engine : Engine) (K : Failure → Prop) (r : Rule) : Prop :=
  r.Sound engine ∨ r.Spoilt ∧ ∃ e, K e

theorem Tenable.rests {K : Failure → Prop} (h : r.Tenable engine K) : r.Rests engine :=
  h.elim Sound.rests fun h => h.1.rests engine

/-- **A cycle on a valid batch** leaves a tenable rule with the pools after the batch, or fails with more
than a predicate. If the rule is spoilt, its status is the one before. -/
theorem cycle_recovers_or_breaks {K : Failure → Prop} (hK : Failure.CrashClosed K)
    (h : r.Rests engine) (hf : engine.registry.FailsIn K r.sentence.formula)
    (hQ : r.facts.pools.after? batch = some Q) (strategy : Strategy) :
    (∃ r', Cycle.Turns (cycle engine strategy batch) r ⟨⟩ r' ∧ r'.Tenable engine K ∧
      r'.sentence = r.sentence ∧ r'.facts.pools = Q ∧
      (r'.Sound engine ∨ r'.Spoilt ∧ r'.status = r.status)) ∨
    ∃ e r', Failure.Serious K e ∧ Cycle.Breaks (cycle engine strategy batch) r e r' := by
  cases cycle_ends hK h hQ (h.wellFormed.answers hf) strategy with
  | succeeds r' hturns hsound hsent hpools =>
    exact .inl ⟨r', hturns, .inl hsound, hsent, hpools, .inl hsound⟩
  | aborts e r' hkind _ hturns hspoilt hsent hpools hstatus =>
    exact .inl ⟨r', hturns, .inr ⟨hspoilt, _, hkind⟩, hsent, hpools, .inr ⟨hspoilt, hstatus⟩⟩
  | stops e r' hkind hserious hbreaks => exact .inr ⟨e, r', ⟨hkind, hserious⟩, hbreaks⟩

/-- **A cycle whose predicates fail locally** does not fail itself. -/
theorem cycle_recovers {K : Failure → Prop} (hK : ∀ e, K e → e.isPredicate = true)
    (h : r.Rests engine) (hf : engine.registry.FailsIn K r.sentence.formula)
    (hQ : r.facts.pools.after? batch = some Q) (strategy : Strategy) :
    ∃ r', Cycle.Turns (cycle engine strategy batch) r ⟨⟩ r' ∧ r'.Tenable engine K ∧
      r'.sentence = r.sentence ∧ r'.facts.pools = Q ∧
      (r'.Sound engine ∨ r'.Spoilt ∧ r'.status = r.status) :=
  (cycle_recovers_or_breaks (Failure.crashClosed_of_isPredicate hK) h hf hQ strategy).resolve_right
    fun ⟨e, _, he, _⟩ => Failure.not_serious hK e he

/-- A rule that is dirty is rebuilt by the next cycle, whatever the strategy. -/
theorem process_of_dirty (h : r.dirty = true) (engine : Engine) (strategy : Strategy)
    (batch : List Change) :
    process engine strategy batch { rule := r } = cycleFull engine batch false { rule := r } := by
  unfold process
  rw [Routine.get_bind, h]
  rfl

end Rule

namespace Checker

variable {c : Checker} {s : Sentence} {reg : Registry} {Q Q' : Pools}

/-- **A rule that is registered** over valid facts is tenable, or more than a predicate fails. -/
theorem addRule_tenable_or_falls {K : Failure → Prop} (hK : Failure.CrashClosed K)
    {facts : List Change} (hnew : c.rules.contains s.rule = false) (hs : s.WellFormed)
    (hf : c.registry.FailsIn K s.formula)
    (hv : (∅ : Pools).after? (facts.filter fun f => s.mentions f.pattern) = some Q) :
    (∃ r, Does (addRule s facts) c r.report { c with rules := c.rules.insert s.rule r } ∧
      r.Tenable c.engine K ∧ r.sentence = s ∧ r.facts.pools = Q) ∨
    Falls K (addRule s facts) c := by
  rcases Rule.cycle_recovers_or_breaks hK (Rule.rests_new hs c.engine) hf hv .full with
    ⟨r, hturns, hr, hsent, hP, -⟩ | ⟨e, r, he, hbreaks⟩
  · exact .inl ⟨r, does_addRule hnew hturns hsent, hr, hsent, hP⟩
  · exact .inr ((stops_addRule hnew hbreaks).falls he)

theorem addRule_tenable {K : Failure → Prop} (hK : ∀ e, K e → e.isPredicate = true)
    {facts : List Change} (hnew : c.rules.contains s.rule = false) (hs : s.WellFormed)
    (hf : c.registry.FailsIn K s.formula)
    (hv : (∅ : Pools).after? (facts.filter fun f => s.mentions f.pattern) = some Q) :
    ∃ r, Does (addRule s facts) c r.report { c with rules := c.rules.insert s.rule r } ∧
      r.Tenable c.engine K ∧ r.sentence = s ∧ r.facts.pools = Q :=
  (addRule_tenable_or_falls (Failure.crashClosed_of_isPredicate hK) hnew hs hf hv).resolve_right
    (Routine.not_falls (Failure.not_serious hK))

/-- **A rule that is checked** on a valid batch stays tenable, or more than a predicate fails. -/
theorem checkBatch_tenable_or_falls {K : Failure → Prop} (hK : Failure.CrashClosed K)
    {id : String} {r : Rule} {batch : List Change} (hr : c.rules[id]? = some r)
    (hten : r.Tenable c.engine K) (hf : c.registry.FailsIn K r.sentence.formula)
    (hv : r.facts.pools.after? batch = some Q) :
    (∃ r', Does (checkBatch id batch) c r'.report { c with rules := c.rules.insert id r' } ∧
      r'.Tenable c.engine K ∧ r'.sentence = r.sentence ∧ r'.facts.pools = Q ∧
      (r'.Sound c.engine ∨ r'.Spoilt ∧ r'.status = r.status)) ∨
    Falls K (checkBatch id batch) c := by
  rcases Rule.cycle_recovers_or_breaks hK hten.rests hf hv c.options.strategy with
    ⟨r', hturns, hrest⟩ | ⟨e, r', he, hbreaks⟩
  · exact .inl ⟨r', does_checkBatch hr hturns, hrest⟩
  · exact .inr ((stops_checkBatch hr hbreaks).falls he)

theorem checkBatch_tenable {K : Failure → Prop} (hK : ∀ e, K e → e.isPredicate = true) {id : String}
    {r : Rule} {batch : List Change} (hr : c.rules[id]? = some r) (hten : r.Tenable c.engine K)
    (hf : c.registry.FailsIn K r.sentence.formula) (hv : r.facts.pools.after? batch = some Q) :
    ∃ r', Does (checkBatch id batch) c r'.report { c with rules := c.rules.insert id r' } ∧
      r'.Tenable c.engine K ∧ r'.sentence = r.sentence ∧ r'.facts.pools = Q ∧
      (r'.Sound c.engine ∨ r'.Spoilt ∧ r'.status = r.status) :=
  (checkBatch_tenable_or_falls (Failure.crashClosed_of_isPredicate hK) hr hten hf hv).resolve_right
    (Routine.not_falls (Failure.not_serious hK))

/-- Valid batches lead to a checker with a rule for a sentence, and to the pools of the rule, whether
or not predicates fail. The strategy may change in between, and whatever happens to other rules does
not matter. -/
inductive Checks (reg : Registry) (s : Sentence) : Checker → Pools → Prop
  | added {c : Checker} {facts : List Change} {Q : Pools} (hreg : c.registry = reg)
      (hnew : c.rules.contains s.rule = false)
      (hv : (∅ : Pools).after? (facts.filter fun f => s.mentions f.pattern) = some Q) :
      Checks reg s ((addRule s facts).after c) Q
  | checked {c : Checker} {batch : List Change} {Q Q' : Pools} (hc : Checks reg s c Q)
      (hv : Q.after? batch = some Q') : Checks reg s ((checkBatch s.rule batch).after c) Q'
  | other {c c' : Checker} {Q : Pools} (hc : Checks reg s c Q) (hreg : c'.registry = c.registry)
      (hmin : c'.options.minimalLinks = c.options.minimalLinks)
      (hrule : c'.rules[s.rule]? = c.rules[s.rule]?) : Checks reg s c' Q

/-- **The rule is tenable** in every reachable state. -/
theorem Checks.tenable (hs : s.WellFormed) (hf : reg.FailsLocally) (h : Checks reg s c Q) :
    c.registry = reg ∧ ∃ r, c.rules[s.rule]? = some r ∧
      r.Tenable c.engine (fun e => e.isPredicate = true) ∧ r.sentence = s ∧ r.facts.pools = Q := by
  induction h with
  | @added c facts Q hreg hnew hv =>
    subst hreg
    obtain ⟨r, hdoes, hr, hsent, hP⟩ := addRule_tenable (fun _ h => h) hnew hs (hf.failsIn _) hv
    obtain ⟨c', hok, hb⟩ := hdoes c rfl
    rw [Routine.after_eq hok, engine_eq_of_bare hb, rules_eq_of_bare hb]
    exact ⟨(registry_eq_of_bare hb).trans rfl, r, ExtTreeMap.getElem?_insert_self, hr, hsent, hP⟩
  | @checked c batch Q Q' _ hv ih =>
    obtain ⟨rfl, r, hr, hten, rfl, rfl⟩ := ih
    obtain ⟨r', hdoes, hr', hsent, hP, -⟩ := checkBatch_tenable (fun _ h => h) hr hten
      (hf.failsIn _) hv
    obtain ⟨c', hok, hb⟩ := hdoes c rfl
    rw [Routine.after_eq hok, engine_eq_of_bare hb, rules_eq_of_bare hb]
    exact ⟨(registry_eq_of_bare hb).trans rfl, r', ExtTreeMap.getElem?_insert_self, hr', hsent, hP⟩
  | @other c c' Q _ hreg hmin hrule ih =>
    have he : c'.engine = c.engine := by
      unfold engine
      rw [hreg, hmin]
    rw [hreg, hrule, he]
    exact ih

/-- **A rule recovers.** Whatever failed before, the next valid batch is reported, and reaches the facts
of the rule as a whole. Either it is reported without an error, as evaluation from scratch would, or
with an error, the status before it, and a rule that the next batch rebuilds. There is an error
whenever the formula does not evaluate over the pools after the batch, and only then, unless changes
are processed one at a time. -/
theorem checkBatch_recovers {d : Draft} {root : Nat} (hs : d.build root = .ok s)
    (hf : reg.FailsLocally) (h : Checks reg s c Q) {batch : List Change}
    (hv : Q.after? batch = some Q') :
    ∃ r report c' r', c.rules[s.rule]? = some r ∧
      checkBatch s.rule batch c = .ok report c' ∧ c'.rules[s.rule]? = some r' ∧
      report = r'.report ∧ r'.facts.pools = Q' ∧
      (report.error = none ∧ r'.dirty = false ∧ s.reportOver reg Q' = .ok report ∨
        report.error.isSome = true ∧ r'.status = r.status ∧ r'.dirty = true ∧
          ∀ strategy next, Rule.process c'.engine strategy next { rule := r' } =
            Rule.cycleFull c'.engine next false { rule := r' }) ∧
      ((∃ e, s.formula.truth reg Q' ∅ = .error e) → report.error.isSome = true) ∧
      (c.options.strategy ≠ .change ∨ r.dirty = true → report.error.isSome = true →
        ∃ e, s.formula.truth reg Q' ∅ = .error e) := by
  have hw := Sentence.wellFormed_of_build hs
  obtain ⟨rfl, r, hr, hten, rfl, rfl⟩ := h.tenable hw hf
  obtain ⟨r', hturns, -, hsent, rfl, hr'⟩ := Rule.cycle_recovers (fun _ h => h)
    hten.rests (hf.failsIn _) hv c.options.strategy
  obtain ⟨c', hok, hb⟩ := does_checkBatch hr hturns c rfl
  have hrule : c'.rules[r.sentence.rule]? = some r' := by
    rw [rules_eq_of_bare hb, ExtTreeMap.getElem?_insert_self]
  have hfails : ¬r.sentence.formula.Evaluates c.registry r'.facts.pools ∅ ↔
      ∃ e, r.sentence.formula.truth c.registry r'.facts.pools ∅ = .error e := by
    rw [Formula.evaluates_iff]
    cases r.sentence.formula.truth c.registry r'.facts.pools ∅ with
    | ok b => simp
    | error e => simp
  refine ⟨r, r'.report, c', r', hr, hok, hrule, rfl, rfl, ?_, ?_, ?_⟩
  · rcases hr' with hsound | ⟨hspoilt, hstatus⟩
    · refine .inl ⟨hsound.noError, hsound.clean, ?_⟩
      rw [hsound.report, ← hsent]
      exact Sentence.reportOver_eq hsound.evaluates
    · exact .inr ⟨hspoilt.error, hstatus, hspoilt.dirty, Rule.process_of_dirty hspoilt.dirty _⟩
  · intro hex
    rcases hr' with hsound | ⟨hspoilt, -⟩
    · exact absurd (hsent ▸ hsound.evaluates) (hfails.mpr hex)
    · exact hspoilt.error
  · intro hstrategy herror
    by_contra hn
    have he := not_not.mp fun h => hn (hfails.mp h)
    obtain ⟨r'', hturns', hsound, -, -⟩ := Rule.cycle_turns_of_brings
      (Rule.process_brings c.engine hten.rests hv he hstrategy)
    obtain rfl := hturns'.unique hturns
    have hnone : r''.report.error = none := hsound.noError
    rw [hnone] at herror
    cases herror

end Checker

namespace Sample

/-- The contexts are in the state `0`; a context without a state is refused. -/
def frail : Predicate := fun args => do
  return (← args.text "v1" "state") == "0"

/-- A checker whose predicate may fail, and that processes one change after the other. -/
def frailChecker : Checker where
  options := { strategy := .change }
  registry := ({} : Registry).register "calm" frail

/-- A sensor without a state. -/
def unread : Change :=
  ⟨.addition, "sensor", 1, ∅⟩

theorem frailChecker_failsLocally : frailChecker.registry.FailsLocally := by
  intro name p hp args e he
  change ((∅ : ExtTreeMap String Predicate).insert "calm" frail)[name]? = some p at hp
  rw [ExtTreeMap.getElem?_insert] at hp
  split_ifs at hp
  · cases hp
    rcases bind_eq_error he with h | ⟨a, -, h⟩
    · exact Arguments.text_error h
    · cases h
  · rw [ExtTreeMap.getElem?_empty] at hp
    cases hp

end Sample

theorem Checker.checkBatch_recovers_sample : ∃ r report c' r',
    ((addRule Sample.sentence [Sample.change .addition 0 "0"]).after
      Sample.frailChecker).rules["calm"]? = some r ∧
    checkBatch "calm" [Sample.unread, Sample.change .update 0 "1"]
      ((addRule Sample.sentence [Sample.change .addition 0 "0"]).after Sample.frailChecker) =
        .ok report c' ∧
    c'.rules["calm"]? = some r' ∧ report = r'.report ∧
    r'.facts.pools = (((∅ : Pools).step (Sample.change .addition 0 "0")).step Sample.unread).step
      (Sample.change .update 0 "1") ∧
    report.error.isSome = true ∧ r'.status = r.status ∧ r'.dirty = true := by
  have hadded : Checks Sample.frailChecker.registry Sample.sentence
      ((addRule Sample.sentence [Sample.change .addition 0 "0"]).after Sample.frailChecker)
      ((∅ : Pools).step (Sample.change .addition 0 "0")) :=
    .added rfl ExtTreeMap.contains_empty rfl
  obtain ⟨r, report, c', r', hr, hok, hr', hreport, hpools, hor, herror, -⟩ :=
    checkBatch_recovers Sample.build_draft Sample.frailChecker_failsLocally hadded
      (rfl : ((∅ : Pools).step (Sample.change .addition 0 "0")).after?
        [Sample.unread, Sample.change .update 0 "1"] = some _)
  have hsome := herror ⟨_, rfl⟩
  rcases hor with ⟨hnone, -⟩ | ⟨-, hstatus, hdirty, -⟩
  · rw [hnone] at hsome
    cases hsome
  · exact ⟨r, report, c', r', hr, hok, hr', hreport, hpools, hsome, hstatus, hdirty⟩

end RuleMonitor
