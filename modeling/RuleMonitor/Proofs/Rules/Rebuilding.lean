import RuleMonitor.Proofs.Rules.Requests

/-!
# Rules that await a rebuild

A failure that is neither local to a rule nor serious is handed on by its cycle. By then the batch has
reached the facts of the rule as a whole, and its instantiation may be half way between the old facts
and the new ones, but the rule is not marked to be rebuilt. So it only goes on as it should if it was
marked before, or if the strategy rebuilds the instantiation in every cycle. Otherwise a later batch
may be answered from what the failed cycle left behind.

* `Rule.Fit`: a rule that is at rest, or that every cycle rebuilds.
* **`Rule.Fit.cycle_falls`**: what a cycle leaves that does not process its batch.
* `Checker.Resumes`: the states that valid batches lead to, with failures only where the rule goes on.
* **`Checker.checkBatch_resumes`**: the next batch in any of these states;
  **`Checker.checkBatch_misleads`**: in another state.
-/

namespace RuleMonitor

open Std (ExtTreeMap)

/-- The strategy rebuilds the instantiation in every cycle. -/
def Strategy.rebuilds : Strategy → Bool
  | full | fullConcurrent => true
  | change | batch | batchConcurrent => false

namespace Rule

variable {engine : Engine} {r : Rule} {Q : Pools} {batch : List Change} {strategy : Strategy}
  {K : Failure → Prop}

/-! ## Cycles that start from anything -/

/-- A rule that is at rest, or whose instantiation does not matter because every cycle rebuilds it. -/
structure Fit (engine : Engine) (strategy : Strategy) (r : Rule) : Prop extends r.Proper where
  deltas : r.facts.deltas = ∅
  rests : r.Rests engine ∨ strategy.rebuilds = true

theorem Rests.fit (h : r.Rests engine) (strategy : Strategy) : r.Fit engine strategy :=
  ⟨h.toProper, h.deltas, .inl h⟩

theorem process_leads_of_rebuilds (h : strategy.rebuilds = true) :
    ∃ concurrent, Cycle.Leads (process engine strategy batch) r
      (cycleFull engine batch concurrent) r := by
  obtain ⟨x, hx, hleads⟩ : ∃ x, (∃ concurrent, x = cycleFull engine batch concurrent) ∧
      Cycle.Leads (process engine strategy batch) r x r := by
    refine ⟨_, ?_, process_leads⟩
    split_ifs
    · exact ⟨false, rfl⟩
    · cases strategy with
      | full => exact ⟨false, rfl⟩
      | fullConcurrent => exact ⟨true, rfl⟩
      | change | batch | batchConcurrent => cases h
  obtain ⟨concurrent, rfl⟩ := hx
  exact ⟨concurrent, hleads⟩

theorem Fit.process_brings (h : r.Fit engine strategy) (hQ : r.facts.pools.after? batch = some Q)
    (he : r.Clears engine strategy batch Q) :
    Cycle.Brings engine (process engine strategy batch) r ⟨⟩ Q := by
  rcases h.rests with hr | hrebuilds
  · exact process_brings_of_clears hr hQ he
  · obtain ⟨concurrent, hleads⟩ := process_leads_of_rebuilds hrebuilds
    exact hleads.brings (cycleFull_brings engine h.toProper h.deltas hQ he.1 concurrent)

theorem Fit.process_spoils (hK : Failure.CrashClosed K) (h : r.Fit engine strategy)
    (hQ : r.facts.pools.after? batch = some Q)
    (ha : ∀ P, r.sentence.formula.Answers engine.registry K P ∅)
    (hn : ¬r.Clears engine strategy batch Q) :
    Cycle.Spoils K (process engine strategy batch) r Q := by
  rcases h.rests with hr | hrebuilds
  · exact Rule.process_spoils hK hr hQ ha hn
  · obtain ⟨concurrent, hleads⟩ := process_leads_of_rebuilds hrebuilds
    have hne : strategy ≠ .change := fun hs => by
      rw [hs] at hrebuilds
      cases hrebuilds
    exact hleads.spoils (cycleFull_spoils hK h.toProper h.deltas hQ (ha Q)
      (fun he => hn ⟨he, fun hs => absurd hs hne⟩) concurrent)

/-- A mild failure that a cycle hands on, and what it leaves of the rule: the facts after the batch, and
everything else that is not the instantiation as it was. -/
structure HandedOn (x : Routine Cycle Unit) (r : Rule) (Q : Pools) (e : Error) (r' : Rule) : Prop where
  mild : e.isFatal = false
  other : e.isPredicate = false
  breaks : Cycle.Breaks x r (.error e) r'
  proper : r'.Proper
  deltas : r'.facts.deltas = ∅
  pools : r'.facts.pools = Q
  sentence : r'.sentence = r.sentence
  status : r'.status = r.status
  dirty : r'.dirty = r.dirty

/-- How a cycle ends that does not process its batch. -/
inductive Falls (x : Routine Cycle Unit) (r : Rule) (Q : Pools) : Prop
  /-- A predicate failed, which spoils the rule. -/
  | aborts (r' : Rule) (turns : Cycle.Turns x r ⟨⟩ r') (spoilt : r'.Spoilt)
      (sentence : r'.sentence = r.sentence) (pools : r'.facts.pools = Q)
      (status : r'.status = r.status)
  /-- A mild failure is handed on. -/
  | handsOn (e : Error) (r' : Rule) (handed : HandedOn x r Q e r')
  /-- The run must stop. -/
  | stops (e : Failure) (r' : Rule) (serious : e.stops = true) (breaks : Cycle.Breaks x r e r')

/-- **A cycle that does not process its batch** is aborted, hands a mild failure on, or stops the
run. -/
theorem Fit.cycle_falls (h : r.Fit engine strategy) (hQ : r.facts.pools.after? batch = some Q)
    (hn : ¬r.Clears engine strategy batch Q) : Falls (cycle engine strategy batch) r Q := by
  obtain ⟨e, facts, tree, -, hb, hP⟩ := h.process_spoils (K := fun _ => True) (fun _ h => h) hQ
    (fun P => Formula.answers_true _ P _ ∅) hn
  cases hp : e.isPredicate with
  | true =>
    have hpools : facts.pools = Q := hP (Failure.stops_of_isPredicate hp)
    cases e with
    | crash c => cases hp
    | error e =>
      exact .aborts _ (cycle_aborts hb hp)
        ⟨⟨h.wellFormed, hpools ▸ h.keyed.after? hQ⟩, rfl, rfl, rfl⟩ rfl hpools rfl
  | false =>
    have hbreaks := cycle_breaks_of_process hb hp
    cases hstops : e.stops with
    | true => exact .stops e _ hstops hbreaks
    | false =>
      have hpools : facts.pools = Q := hP hstops
      cases e with
      | crash c => cases hstops
      | error e =>
        exact .handsOn e _ ⟨hstops, hp, hbreaks, ⟨h.wellFormed, hpools ▸ h.keyed.after? hQ⟩, rfl,
          hpools, rfl, rfl, rfl⟩

/-- A rule goes on after a failure that was handed on if it was to be rebuilt anyway. -/
theorem HandedOn.fit {x : Routine Cycle Unit} {e : Error} {r' : Rule} (h : HandedOn x r Q e r')
    (hr : r.dirty = true ∨ strategy.rebuilds = true) : r'.Fit engine strategy :=
  ⟨h.proper, h.deltas, hr.imp (fun hd => ⟨h.proper, h.deltas, .inl (h.dirty.trans hd)⟩) fun hb => hb⟩

end Rule

namespace Checker

variable {reg : Registry} {strategy : Strategy} {s : Sentence} {c : Checker} {Q Q' : Pools}

/-! ## One batch -/

/-- The checker has a fit rule with a sentence over pools. -/
structure Keeps (reg : Registry) (strategy : Strategy) (s : Sentence) (c : Checker) (Q : Pools)
    (r : Rule) : Prop where
  checkerRegistry : c.registry = reg
  checkerStrategy : c.options.strategy = strategy
  rule : c.rules[s.rule]? = some r
  fit : r.Fit c.engine strategy
  sentence : r.sentence = s
  pools : r.facts.pools = Q

theorem Keeps.replace {c' : Checker} {rules : ExtTreeMap String Rule} {r : Rule}
    (hreg : c.registry = reg) (hstrategy : c.options.strategy = strategy)
    (hb : c'.bare = ({ c with rules := rules.insert s.rule r } : Checker).bare)
    (hfit : r.Fit c.engine strategy) (hsent : r.sentence = s) (hP : r.facts.pools = Q) :
    Keeps reg strategy s c' Q r where
  checkerRegistry := (registry_eq_of_bare hb).trans hreg
  checkerStrategy := (congrArg CheckerOptions.strategy (options_eq_of_bare hb)).trans hstrategy
  rule := by rw [rules_eq_of_bare hb, ExtTreeMap.getElem?_insert_self]
  fit := by
    rw [engine_eq_of_bare hb]
    exact hfit
  sentence := hsent
  pools := hP

/-- How a checker answers to a batch that leads to some pools, and what becomes of the rule. -/
inductive Answers (strategy : Strategy) (batch : List Change) (c : Checker) (r : Rule) (Q : Pools) :
    Prop
  /-- The batch was processed. -/
  | reports (r' : Rule) (clears : r.Clears c.engine strategy batch Q) (sound : r'.Sound c.engine)
      (does : Does (checkBatch r.id batch) c r'.report { c with rules := c.rules.insert r.id r' })
      (sentence : r'.sentence = r.sentence) (pools : r'.facts.pools = Q)
  /-- A predicate failed, which spoils the rule. -/
  | aborts (r' : Rule) (fails : ¬r.Clears c.engine strategy batch Q) (spoilt : r'.Spoilt)
      (does : Does (checkBatch r.id batch) c r'.report { c with rules := c.rules.insert r.id r' })
      (sentence : r'.sentence = r.sentence) (pools : r'.facts.pools = Q)
      (status : r'.status = r.status)
  /-- A mild failure is handed on. -/
  | handsOn (e : Error) (r' : Rule) (fails : ¬r.Clears c.engine strategy batch Q)
      (handed : Rule.HandedOn (Rule.cycle c.engine strategy batch) r Q e r')
      (stops : Stops (checkBatch r.id batch) c (.error e) { c with rules := c.rules.insert r.id r' })
  /-- The run must stop. -/
  | stops (e : Failure) (c' : Checker) (fails : ¬r.Clears c.engine strategy batch Q)
      (serious : e.stops = true) (stops : Stops (checkBatch r.id batch) c e c')

/-- **A batch of a fit rule** is answered so. -/
theorem Keeps.answers {r : Rule} (h : Keeps reg strategy s c Q r) {batch : List Change}
    (hv : Q.after? batch = some Q') : Answers strategy batch c r Q' := by
  obtain ⟨rfl, rfl, hr, hfit, rfl, rfl⟩ := h
  by_cases hclears : r.Clears c.engine c.options.strategy batch Q'
  · obtain ⟨r', hturns, hsound, hsent, hP⟩ :=
      Rule.cycle_turns_of_brings (hfit.process_brings hv hclears)
    exact .reports r' hclears hsound (does_checkBatch hr hturns) hsent hP
  · cases hfit.cycle_falls hv hclears with
    | aborts r' hturns hspoilt hsent hP hstatus =>
      exact .aborts r' hclears hspoilt (does_checkBatch hr hturns) hsent hP hstatus
    | handsOn e r' hhanded =>
      exact .handsOn e r' hclears hhanded (stops_checkBatch hr hhanded.breaks)
    | stops e r' hserious hbreaks =>
      exact .stops e _ hclears hserious (stops_checkBatch hr hbreaks)

theorem Keeps.checked {c' : Checker} {r : Rule} {report : Report} (h : Keeps reg strategy s c Q r)
    {batch : List Change} (hv : Q.after? batch = some Q')
    (hok : checkBatch s.rule batch c = .ok report c') : ∃ r', Keeps reg strategy s c' Q' r' := by
  have hid : r.id = s.rule := congrArg (fun s => s.rule) h.sentence
  have hanswers := h.answers hv
  rw [← hid] at hok
  cases hanswers with
  | reports r' _ hsound hdoes hs hP =>
    exact ⟨r', .replace h.checkerRegistry h.checkerStrategy (hid ▸ (hdoes.unique hok).2)
      (hsound.rests.fit _) (hs.trans h.sentence) hP⟩
  | aborts r' _ hspoilt hdoes hs hP =>
    exact ⟨r', .replace h.checkerRegistry h.checkerStrategy (hid ▸ (hdoes.unique hok).2)
      ((hspoilt.rests _).fit _) (hs.trans h.sentence) hP⟩
  | handsOn e r' _ _ hstops => exact absurd hok (hstops.ne_ok _ _)
  | stops e c'' _ _ hstops => exact absurd hok (hstops.ne_ok _ _)

/-- A fit rule is fit after a mild failure, if it was to be rebuilt anyway. -/
theorem Keeps.failed {c' : Checker} {r : Rule} {e : Failure} (h : Keeps reg strategy s c Q r)
    {batch : List Change} (hv : Q.after? batch = some Q')
    (herror : checkBatch s.rule batch c = .error e c') (hmild : e.stops = false)
    (hrebuilt : r.dirty = true ∨ strategy.rebuilds = true) : ∃ r', Keeps reg strategy s c' Q' r' := by
  have hid : r.id = s.rule := congrArg (fun s => s.rule) h.sentence
  have hanswers := h.answers hv
  rw [← hid] at herror
  cases hanswers with
  | reports r' _ _ hdoes => exact absurd herror (hdoes.ne_error _ _)
  | aborts r' _ _ hdoes => exact absurd herror (hdoes.ne_error _ _)
  | handsOn e' r' _ hhanded hstops =>
    exact ⟨r', .replace h.checkerRegistry h.checkerStrategy (hid ▸ (hstops.unique herror).2)
      (hhanded.fit hrebuilt) (hhanded.sentence.trans h.sentence) hhanded.pools⟩
  | stops e' c'' _ hserious hstops =>
    obtain rfl := (hstops.unique herror).1
    exact absurd (hmild.symm.trans hserious) Bool.false_ne_true

/-- A rule that is registered over valid facts is fit, if the registration succeeds. -/
theorem keeps_of_addRule {c' : Checker} {facts : List Change} {report : Report} (hs : s.WellFormed)
    (hnew : c.rules.contains s.rule = false)
    (hv : (∅ : Pools).after? (facts.filter fun f => s.mentions f.pattern) = some Q)
    (hok : addRule s facts c = .ok report c') :
    ∃ r, Keeps c.registry c.options.strategy s c' Q r := by
  cases Rule.cycle_ends (K := fun _ => True) (fun _ h => h) (Rule.rests_new hs c.engine) hv
    (fun P => Formula.answers_true _ P _ ∅) .full with
  | succeeds r hturns hsound hsent hP =>
    obtain ⟨-, hb⟩ := (does_addRule hnew hturns hsent).unique hok
    exact ⟨r, .replace rfl rfl hb (hsound.rests.fit _) hsent hP⟩
  | aborts e r _ _ hturns hspoilt hsent hP =>
    obtain ⟨-, hb⟩ := (does_addRule hnew hturns hsent).unique hok
    exact ⟨r, .replace rfl rfl hb ((hspoilt.rests c.engine).fit _) hsent hP⟩
  | stops e r _ _ hbreaks => exact absurd hok ((stops_addRule hnew hbreaks).ne_ok _ _)

/-! ## Histories with failures -/

/-- Valid batches lead to a checker of a strategy with a rule for a sentence, and to the pools of the
rule. A mild failure may be among the answers if the rule was to be rebuilt when it occurred, or is
rebuilt in every cycle. Whatever happens to other rules does not matter. -/
inductive Resumes (reg : Registry) (strategy : Strategy) (s : Sentence) : Checker → Pools → Prop
  | added {c c' : Checker} {facts : List Change} {report : Report} {Q : Pools}
      (hreg : c.registry = reg) (hstrategy : c.options.strategy = strategy)
      (hnew : c.rules.contains s.rule = false)
      (hv : (∅ : Pools).after? (facts.filter fun f => s.mentions f.pattern) = some Q)
      (hok : addRule s facts c = .ok report c') : Resumes reg strategy s c' Q
  | checked {c c' : Checker} {batch : List Change} {report : Report} {Q Q' : Pools}
      (hc : Resumes reg strategy s c Q) (hv : Q.after? batch = some Q')
      (hok : checkBatch s.rule batch c = .ok report c') : Resumes reg strategy s c' Q'
  | failed {c c' : Checker} {batch : List Change} {e : Failure} {r : Rule} {Q Q' : Pools}
      (hc : Resumes reg strategy s c Q) (hv : Q.after? batch = some Q')
      (herror : checkBatch s.rule batch c = .error e c') (hmild : e.stops = false)
      (hr : c.rules[s.rule]? = some r) (hrebuilt : r.dirty = true ∨ strategy.rebuilds = true) :
      Resumes reg strategy s c' Q'
  | other {c c' : Checker} {Q : Pools} (hc : Resumes reg strategy s c Q)
      (hreg : c'.registry = c.registry) (hoptions : c'.options = c.options)
      (hrule : c'.rules[s.rule]? = c.rules[s.rule]?) : Resumes reg strategy s c' Q

/-- **The rule is fit** in every state reached. -/
theorem Resumes.keeps (hs : s.WellFormed) (h : Resumes reg strategy s c Q) :
    ∃ r, Keeps reg strategy s c Q r := by
  induction h with
  | added hreg hstrategy hnew hv hok =>
    subst hreg hstrategy
    exact keeps_of_addRule hs hnew hv hok
  | checked _ hv hok ih =>
    obtain ⟨r, hr⟩ := ih
    exact hr.checked hv hok
  | failed _ hv herror hmild hrule hrebuilt ih =>
    obtain ⟨r, hr⟩ := ih
    obtain rfl := Option.some.inj (hrule.symm.trans hr.rule)
    exact hr.failed hv herror hmild hrebuilt
  | other _ hreg hoptions hrule ih =>
    obtain ⟨r, hr⟩ := ih
    refine ⟨r, hreg.trans hr.checkerRegistry, ?_, hrule.trans hr.rule, ?_, hr.sentence, hr.pools⟩
    · rw [hoptions]
      exact hr.checkerStrategy
    · unfold engine
      rw [hreg, hoptions]
      exact hr.fit

/-- **A rule that goes on resumes.** In every state reached, whatever the predicates are, a valid batch
that evaluates is reported as evaluation from scratch would. One that does not is reported with an
error, the status before it and a rule that is to be rebuilt, or it is answered by a mild error, which
leaves the facts after the batch, the status, and whether the rule is to be rebuilt, or the run must
stop. -/
theorem checkBatch_resumes {d : Draft} {root : Nat} (hs : d.build root = .ok s)
    (h : Resumes reg strategy s c Q) {batch : List Change} (hv : Q.after? batch = some Q') :
    ∃ r, c.rules[s.rule]? = some r ∧ r.facts.pools = Q ∧
      (r.Clears c.engine strategy batch Q' → ∃ report c' r',
        checkBatch s.rule batch c = .ok report c' ∧ s.reportOver reg Q' = .ok report ∧
          c'.rules[s.rule]? = some r' ∧ r'.facts.pools = Q') ∧
      (¬r.Clears c.engine strategy batch Q' →
        (∃ report c' r', checkBatch s.rule batch c = .ok report c' ∧
          report.error.isSome = true ∧ report.status = r.status ∧
          c'.rules[s.rule]? = some r' ∧ r'.facts.pools = Q' ∧ r'.dirty = true) ∨
        (∃ e c' r', checkBatch s.rule batch c = .error (.error e) c' ∧
          e.isFatal = false ∧ e.isPredicate = false ∧
          c'.rules[s.rule]? = some r' ∧ r'.facts.pools = Q' ∧ r'.status = r.status ∧
          r'.dirty = r.dirty) ∨
        ∃ e c', checkBatch s.rule batch c = .error e c' ∧ e.stops = true) := by
  obtain ⟨r, hr⟩ := h.keeps (Sentence.wellFormed_of_build hs)
  have hid : r.id = s.rule := congrArg (fun s => s.rule) hr.sentence
  have hinsert : ∀ {c' : Checker} {r' : Rule},
      c'.bare = ({ c with rules := c.rules.insert r.id r' } : Checker).bare →
        c'.rules[r.id]? = some r' := fun hb => by
    rw [rules_eq_of_bare hb, ExtTreeMap.getElem?_insert_self]
  refine ⟨r, hr.rule, hr.pools, ?_⟩
  rw [← hid]
  cases hr.answers hv with
  | reports r' hclears hsound hdoes hsent hP =>
    obtain ⟨c', hok, hb⟩ := hdoes c rfl
    refine ⟨fun _ => ⟨r'.report, c', r', hok, ?_, hinsert hb, hP⟩, fun hn => absurd hclears hn⟩
    rw [hsound.report, ← hP, ← hr.sentence, ← hsent, ← hr.checkerRegistry]
    exact Sentence.reportOver_eq hsound.evaluates
  | aborts r' hn hspoilt hdoes hsent hP hstatus =>
    obtain ⟨c', hok, hb⟩ := hdoes c rfl
    exact ⟨fun hclears => absurd hclears hn, fun _ =>
      .inl ⟨r'.report, c', r', hok, hspoilt.error, hstatus, hinsert hb, hP, hspoilt.dirty⟩⟩
  | handsOn e r' hn hhanded hstops =>
    obtain ⟨c', herror, hb⟩ := hstops c rfl
    exact ⟨fun hclears => absurd hclears hn, fun _ => .inr (.inl ⟨e, c', r', herror, hhanded.mild,
      hhanded.other, hinsert hb, hhanded.pools, hhanded.status, hhanded.dirty⟩)⟩
  | stops e c'' hn hserious hstops =>
    obtain ⟨c', herror, -⟩ := hstops c rfl
    exact ⟨fun hclears => absurd hclears hn, fun _ => .inr (.inr ⟨e, c', herror, hserious⟩)⟩

end Checker

/-! ## A sample -/

namespace Sample

/-- The sensor is whole; one that is broken is refused with a message. -/
def whole : Predicate := fun args => do
  match (← args.context "v1").attribute? "boom" with
  | some text => throw (.of (.plain text))
  | none => return true

/-- Every sensor is whole, and not still. -/
def watching : Draft where
  rule := "moving"
  nodes := [.application ⟨"whole", [("v1", "x")]⟩, .application ⟨"not_still", [("v1", "x")]⟩,
    .binary .and 0 1, .quantified { kind := .universal, var := "x", pattern := "sensor" } 2]

/-- The sentence of the draft. -/
def moving : Sentence :=
  { watching with
    root := 3
    formula := .quantified 3 { kind := .universal, var := "x", pattern := "sensor" }
      (.binary 2 .and (.application 0 ⟨"whole", [("v1", "x")]⟩)
        (.application 1 ⟨"not_still", [("v1", "x")]⟩)) }

/-- A checker that processes one change after the other. -/
def watch : Checker where
  options := { strategy := .change }
  registry := Registry.builtin.register "whole" whole

/-- A change of a sensor that is broken. -/
def broken (kind : ChangeKind) (id : Nat) : Change :=
  ⟨kind, "sensor", id, (∅ : Attributes).insert "boom" "x"⟩

theorem build_watching : watching.build 3 = .ok moving := rfl

/-- What is reported if no sensor is still. -/
def allMoving : Report :=
  ⟨"moving", ⟨.yes, []⟩, none⟩

/-- What is reported if the sensor `1` is still. -/
def oneStill : Report :=
  ⟨"moving", ⟨.no, [⟨.violated, (∅ : Bindings).insert "x" 1⟩]⟩, none⟩

/-- The rule is registered over no facts. -/
def watched : Checker :=
  (Checker.addRule moving []).after watch

/-- A broken sensor comes, and one that is still. -/
def arrivals : List Change :=
  [broken .addition 0, change .addition 1 "0"]

/-- The broken sensor goes. -/
def departure : List Change :=
  [broken .deletion 0]

/-- The rule after the arrivals, which are refused. -/
def halted : Checker :=
  (Checker.checkBatch "moving" arrivals).after watched

/-- The rule is registered, refuses the arrivals, and is said to hold after the departure. -/
theorem watched_runs : (Checker.addRule moving []).value watch = .ok allMoving ∧
    (Checker.checkBatch "moving" arrivals).value watched = .error (.of (.plain "x")) ∧
    (Checker.checkBatch "moving" departure).value halted = .ok allMoving ∧
    ((Checker.checkBatch "moving" departure).after halted).rules["moving"]?.map
      (fun r => moving.reportOver watch.registry r.facts.pools) = some (.ok oneStill) := by
  decide +kernel

/-- The rule is registered over a sensor whose state is not known. -/
def puzzled : Checker :=
  (Checker.addRule moving [unread]).after watch

/-- The rule after a broken sensor has come, which is refused. -/
def stopped : Checker :=
  (Checker.checkBatch "moving" [broken .addition 0]).after puzzled

/-- The broken sensor goes, and the other one is found to be still. -/
def relieved : List Change :=
  [broken .deletion 0, change .update 1 "0"]

theorem puzzled_runs : (Checker.addRule moving [unread]).value watch = .ok ⟨"moving", {},
      some "predicate `not_still`: context `ctx#1` has no attribute `state`"⟩ ∧
    puzzled.rules["moving"]?.map Rule.dirty = some true ∧
    (Checker.checkBatch "moving" [broken .addition 0]).value puzzled = .error (.of (.plain "x")) ∧
    stopped.rules["moving"]?.map Rule.dirty = some true := by
  decide +kernel

/-- The facts of the rule when it is stopped. -/
def stoppedPools : Pools :=
  ((∅ : Pools).step unread).step (broken .addition 0)

theorem relieved_found : (stoppedPools.after? relieved).map (fun Q =>
    (moving.formula.truth watch.registry Q ∅, moving.reportOver watch.registry Q)) =
      some (.ok false, .ok oneStill) := by decide +kernel

/-- The rule goes on after it was stopped, because it was to be rebuilt before. -/
theorem resumes_stopped :
    Checker.Resumes watch.registry .change moving stopped stoppedPools := by
  obtain ⟨hadded, hpuzzled, hstopped, -⟩ := puzzled_runs
  obtain ⟨c, hok⟩ := Routine.exists_of_value hadded
  obtain ⟨c', herror⟩ := Routine.exists_of_value_error hstopped
  obtain ⟨r, hr, hdirty⟩ := Option.map_eq_some_iff.mp hpuzzled
  rw [puzzled, Routine.after_eq hok] at hr herror
  rw [stopped, puzzled, Routine.after_eq hok, Routine.after_eq_of_error herror]
  have hresumes : Checker.Resumes watch.registry .change moving c ((∅ : Pools).step unread) :=
    .added rfl rfl ExtTreeMap.contains_empty rfl hok
  exact hresumes.failed rfl herror rfl hr (.inl hdirty)

end Sample

/-- **A rule that does not go on misleads.** The broken sensor stops the cycle before the one that is
still is looked at, and when the broken one is gone the rule is said to hold, though the other one is
among its facts. -/
theorem Checker.checkBatch_misleads : ∃ c₀ e c₁ c₂ r,
    addRule Sample.moving [] Sample.watch = .ok Sample.allMoving c₀ ∧
      (((∅ : Pools).after? Sample.arrivals).bind fun P => P.after? Sample.departure).isSome = true ∧
      checkBatch "moving" Sample.arrivals c₀ = .error (.error e) c₁ ∧
      e.isFatal = false ∧ e.isPredicate = false ∧
      checkBatch "moving" Sample.departure c₁ = .ok Sample.allMoving c₂ ∧
      c₂.rules["moving"]? = some r ∧
      Sample.moving.reportOver Sample.watch.registry r.facts.pools = .ok Sample.oneStill ∧
      Sample.allMoving ≠ Sample.oneStill := by
  obtain ⟨hadded, harrivals, hdeparture, hreported⟩ := Sample.watched_runs
  obtain ⟨c₀, h₀⟩ := Routine.exists_of_value hadded
  have hc₀ : Sample.watched = c₀ := Routine.after_eq h₀
  obtain ⟨c₁, h₁⟩ := Routine.exists_of_value_error harrivals
  have hc₁ : Sample.halted = c₁ := Routine.after_eq_of_error h₁
  obtain ⟨c₂, h₂⟩ := Routine.exists_of_value hdeparture
  obtain ⟨r, hr, hreport⟩ := Option.map_eq_some_iff.mp hreported
  rw [Routine.after_eq h₂] at hr
  rw [hc₀] at h₁
  rw [hc₁] at h₂
  exact ⟨c₀, _, c₁, c₂, r, h₀, by decide +kernel, h₁, rfl, rfl, h₂, hr, hreport,
    by decide +kernel⟩

theorem Checker.checkBatch_resumes_sample : ∃ Q,
    Sample.watching.build 3 = .ok Sample.moving ∧
    Resumes Sample.watch.registry .change Sample.moving Sample.stopped Sample.stoppedPools ∧
    Sample.stoppedPools.after? Sample.relieved = some Q ∧
    ∃ c', checkBatch "moving" Sample.relieved Sample.stopped = .ok Sample.oneStill c' := by
  obtain ⟨Q, hQ, hfound⟩ := Option.map_eq_some_iff.mp Sample.relieved_found
  obtain ⟨htruth, hreport⟩ := Prod.mk.inj hfound
  refine ⟨Q, Sample.build_watching, Sample.resumes_stopped, hQ, ?_⟩
  obtain ⟨r, hr, -, hclears, -⟩ :=
    checkBatch_resumes Sample.build_watching Sample.resumes_stopped hQ
  obtain ⟨r', hkeeps⟩ := Sample.resumes_stopped.keeps
    (Sentence.wellFormed_of_build Sample.build_watching)
  obtain rfl := Option.some.inj (hr.symm.trans hkeeps.rule)
  have hrule : Sample.moving.rule = "moving" := rfl
  rw [hrule] at hr hclears
  obtain ⟨r', hr', hdirty⟩ := Option.map_eq_some_iff.mp Sample.puzzled_runs.2.2.2
  obtain rfl := Option.some.inj (hr'.symm.trans hr)
  have hengine : ∀ c : Checker, c.engine.registry = c.registry := fun _ => rfl
  have hevaluates : r'.sentence.formula.Evaluates Sample.stopped.engine.registry Q ∅ := by
    rw [hengine, hkeeps.checkerRegistry, hkeeps.sentence]
    exact Formula.evaluates_iff.mpr ⟨false, htruth⟩
  have hkept : (r'.dirty || r'.tree.root.isNone) = true := by rw [hdirty, Bool.true_or]
  obtain ⟨report, c', -, hok, hreport', -⟩ := hclears
    ⟨hevaluates, fun _ hf => absurd (hf.symm.trans hkept) Bool.false_ne_true⟩
  rw [Except.ok.inj (hreport.symm.trans hreport')]
  exact ⟨c', hok⟩

end RuleMonitor
