import RuleMonitor.Proofs.Arenas.Consistency
import RuleMonitor.Proofs.Rules.Strategies

/-!
# Cycles

Between cycles a rule is sound, or the last cycle was aborted and the next one rebuilds its
instantiation. If it is sound, its instantiation is right for its facts, and its status is that of its
formula over them. A cycle on a valid batch leads back to such a rule, whatever the strategy, unless
the run must stop: a predicate that fails leaves the facts after the batch and the status before it.

* `Formula.status`: the status that a formula has over pools.
* `Rule.Sound`, `Rule.Spoilt`: what holds between cycles.
* `Rule.Clears`: the formula evaluates over the pools that a cycle depends on.
* `Rule.Ends`, `Rule.Fails`: how a cycle ends; **`Rule.cycle_ends`**: every cycle on a valid batch does.
* **`Rule.cycle_turns`**: a cycle of a rule whose formula evaluates leaves it sound.
-/

namespace RuleMonitor

open Std (ExtTreeMap ExtTreeSet)

namespace Formula

/-- The status of a formula over pools where it evaluates. -/
def status (r : Registry) (P : Pools) (f : Formula) : Status where
  truth := .ofBool (f.holds r P ∅)
  witnesses := if f.holds r P ∅ then [] else (f.links r P ∅).minimal

/-- The status consists of the truth of the formula and of its witnesses. -/
theorem status_eq {r : Registry} {P : Pools} {f : Formula} (h : f.Evaluates r P ∅) :
    ∃ b links, f.truth r P ∅ = .ok b ∧ f.witnesses r P = .ok links ∧
      f.status r P = ⟨.ofBool b, links⟩ := by
  refine ⟨_, _, truth_eq h, ?_, rfl⟩
  unfold witnesses
  rw [explanation_eq h]
  rfl

end Formula

/-- The failure is local to a rule. -/
def Failure.isPredicate : Failure → Bool
  | .error e => e.isPredicate
  | .crash _ => false

/-- The failure is of some kind, and not local to a rule. -/
def Failure.Serious (K : Failure → Prop) (e : Failure) : Prop :=
  K e ∧ e.isPredicate = false

/-- There is no crash of a kind of failures that are local to a rule. -/
theorem Failure.crashClosed_of_isPredicate {K : Failure → Prop} (hK : ∀ e, K e → e.isPredicate = true) :
    CrashClosed K :=
  fun c h => absurd (hK (.crash c) h) Bool.false_ne_true

theorem Failure.not_serious {K : Failure → Prop} (hK : ∀ e, K e → e.isPredicate = true) (e : Failure) :
    ¬Serious K e :=
  fun h => Bool.false_ne_true (h.2.symm.trans (hK e h.1))

theorem Failure.stops_of_isPredicate {e : Failure} (h : e.isPredicate = true) : e.stops = false := by
  obtain ⟨⟨kind, causes⟩⟩ | c := e
  · cases kind <;> first | rfl | cases h
  · cases h

namespace Rule

variable {engine : Engine} {r : Rule} {P Q : Pools} {t : Tree} {n : Node} {batch : List Change}
  {strategy : Strategy} {K : Failure → Prop}

/-! ## Between cycles -/

/-- The rule has the facts, the instantiation and the status that a successful cycle leaves. -/
structure Sound (engine : Engine) (r : Rule) : Prop extends r.Upright engine where
  deltas : r.facts.deltas = ∅
  clean : r.dirty = false
  noError : r.lastError = none
  status : r.status = r.sentence.formula.status engine.registry r.facts.pools

/-- The rule has the facts that an aborted cycle leaves, and is to be rebuilt. -/
structure Spoilt (r : Rule) : Prop extends r.Proper where
  deltas : r.facts.deltas = ∅
  dirty : r.dirty = true
  error : r.lastError.isSome = true

/-- A cycle can start. -/
structure Rests (engine : Engine) (r : Rule) : Prop extends r.Proper where
  deltas : r.facts.deltas = ∅
  upright : r.dirty = true ∨ r.tree.root = none ∨ r.Upright engine

theorem Sound.rests (h : r.Sound engine) : r.Rests engine :=
  ⟨h.toProper, h.deltas, .inr (.inr h.toUpright)⟩

theorem Spoilt.rests (h : r.Spoilt) (engine : Engine) : r.Rests engine :=
  ⟨h.toProper, h.deltas, .inl h.dirty⟩

theorem Rests.upright_of_not_rebuilt (h : r.Rests engine)
    (hn : ¬(r.dirty || r.tree.root.isNone) = true) : r.Upright engine := by
  rw [Bool.or_eq_true, not_or, Option.isNone_iff_eq_none] at hn
  exact (h.upright.resolve_left hn.1).resolve_left hn.2

theorem rests_new {s : Sentence} (hs : s.WellFormed) (engine : Engine) :
    Rests engine { sentence := s } :=
  ⟨⟨hs, Pools.keyed_empty⟩, rfl, .inr (.inl rfl)⟩

/-! ## The work of a cycle -/

theorem process_leads : Cycle.Leads (process engine strategy batch) r
    (if r.dirty || r.tree.root.isNone then cycleFull engine batch false
      else match strategy with
        | .full => cycleFull engine batch false
        | .fullConcurrent => cycleFull engine batch true
        | .change => cycleChanges engine batch
        | .batch => cycleBatch engine batch false
        | .batchConcurrent => cycleBatch engine batch true) r := by
  refine Cycle.leads_get fun c hc => ?_
  rw [hc]
  exact Cycle.Leads.refl _ _

/-- The formula evaluates over all pools that a cycle on a batch depends on: those after the batch, and
if the batch is processed one change at a time, those that it passes through. -/
def Clears (engine : Engine) (strategy : Strategy) (batch : List Change) (r : Rule) (Q : Pools) :
    Prop :=
  r.sentence.formula.Evaluates engine.registry Q ∅ ∧
    (strategy = .change → (r.dirty || r.tree.root.isNone) = false →
      ∀ P ∈ r.facts.pools.trail batch, r.sentence.formula.Evaluates engine.registry P ∅)

/-- **A batch is processed** if the formula evaluates over the pools that matter. -/
theorem process_brings_of_clears (h : r.Rests engine) (hQ : r.facts.pools.after? batch = some Q)
    (he : r.Clears engine strategy batch Q) :
    Cycle.Brings engine (process engine strategy batch) r ⟨⟩ Q := by
  have hfull := cycleFull_brings engine h.toProper h.deltas hQ he.1
  refine process_leads.brings ?_
  split_ifs with hrebuild
  · exact hfull false
  · have hu := h.upright_of_not_rebuilt hrebuild
    cases strategy with
    | full => exact hfull false
    | fullConcurrent => exact hfull true
    | change => exact cycleChanges_brings hu hQ (he.2 rfl (Bool.eq_false_iff.mpr hrebuild))
    | batch => exact cycleBatch_brings hu h.deltas hQ he.1 false
    | batchConcurrent => exact cycleBatch_brings hu h.deltas hQ he.1 true

/-- **A batch is not processed** if the formula does not evaluate over the pools that matter. -/
theorem process_spoils (hK : Failure.CrashClosed K) (h : r.Rests engine)
    (hQ : r.facts.pools.after? batch = some Q)
    (ha : ∀ P, r.sentence.formula.Answers engine.registry K P ∅)
    (hn : ¬r.Clears engine strategy batch Q) :
    Cycle.Spoils K (process engine strategy batch) r Q := by
  have hfull : ¬r.sentence.formula.Evaluates engine.registry Q ∅ → ∀ concurrent,
      Cycle.Spoils K (cycleFull engine batch concurrent) r Q :=
    cycleFull_spoils hK h.toProper h.deltas hQ (ha Q)
  refine process_leads.spoils ?_
  split_ifs with hrebuild
  · exact hfull (fun he => hn ⟨he, fun _ hf => absurd (hf.symm.trans hrebuild) Bool.false_ne_true⟩)
      false
  · have hu := h.upright_of_not_rebuilt hrebuild
    have hbatch : ¬r.sentence.formula.Evaluates engine.registry Q ∅ → ∀ concurrent,
        Cycle.Spoils K (cycleBatch engine batch concurrent) r Q :=
      cycleBatch_spoils hK hu h.deltas hQ (ha Q)
    cases strategy with
    | full => exact hfull (fun he => hn ⟨he, nofun⟩) false
    | fullConcurrent => exact hfull (fun he => hn ⟨he, nofun⟩) true
    | change =>
      exact cycleChanges_spoils hK hu hQ ha fun htrail =>
        hn ⟨hu.evaluates_of_trail hQ htrail, fun _ _ => htrail⟩
    | batch => exact hbatch (fun he => hn ⟨he, nofun⟩) false
    | batchConcurrent => exact hbatch (fun he => hn ⟨he, nofun⟩) true

/-- **A batch is processed**, or the rule is spoilt. -/
theorem process_ends (hK : Failure.CrashClosed K) (h : r.Rests engine)
    (hQ : r.facts.pools.after? batch = some Q)
    (ha : ∀ P, r.sentence.formula.Answers engine.registry K P ∅) (strategy : Strategy) :
    Cycle.Brings engine (process engine strategy batch) r ⟨⟩ Q ∨
      Cycle.Spoils K (process engine strategy batch) r Q :=
  (em (r.Clears engine strategy batch Q)).imp (process_brings_of_clears h hQ)
    (process_spoils hK h hQ ha)

variable (engine) in
/-- **A batch is processed** if the formula evaluates over the pools after it, and these are the only
ones that matter. -/
theorem process_brings (h : r.Rests engine) (hQ : r.facts.pools.after? batch = some Q)
    (he : r.sentence.formula.Evaluates engine.registry Q ∅)
    (hs : strategy ≠ .change ∨ r.dirty = true) :
    Cycle.Brings engine (process engine strategy batch) r ⟨⟩ Q := by
  refine process_brings_of_clears h hQ ⟨he, fun hchange hkept => ?_⟩
  rw [Bool.or_eq_false_iff] at hkept
  exact absurd (hkept.1.symm.trans (hs.resolve_left (not_not.mpr hchange))) Bool.false_ne_true

theorem statusOf_eq {f : Formula} (h : t.Right engine P f n) (hn : n.Calm) :
    statusOf n.cell = f.status engine.registry P := by
  have ht : n.cell.truth = .ofBool (f.holds engine.registry P ∅) :=
    (h.found.root.2.1 (hn n.cell (Node.cell_mem_cells n))).trans h.staged
  unfold statusOf Formula.status
  rw [ht]
  cases hb : f.holds engine.registry P ∅ with
  | true => rfl
  | false =>
    rw [h.links (.inr hb)]
    rfl

theorem updateStatus_turns (h : r.Upright engine) :
    Cycle.Turns updateStatus r ⟨⟩
      { r with status := r.sentence.formula.status engine.registry r.facts.pools } := by
  obtain ⟨n, hn, hcalm⟩ := h.tree
  refine Cycle.turns_get fun c hc => ?_
  have hroot : c.rule.tree.getRoot = .ok n := by
    rw [hc]
    unfold Tree.getRoot
    rw [hn.root]
  refine (Cycle.turns_ofExcept hroot r).bind ?_
  rw [← statusOf_eq hn hcalm]
  exact Cycle.turns_modifyRule _ r

theorem Upright.check (h : r.Upright engine) : r.tree.check r.sentence = .ok () := by
  obtain ⟨n, hn, hcalm⟩ := h.tree
  exact Tree.check_ok h.keyed h.wellFormed hn.root hn.owns hn.placed hn.found hcalm

/-! ## Whole cycles -/

/-- How a cycle of a rule ends, on a batch that leads to some pools. -/
inductive Ends (engine : Engine) (K : Failure → Prop) (x : Routine Cycle Unit) (r : Rule) (Q : Pools) :
    Prop
  /-- It leaves a sound rule. -/
  | succeeds (r' : Rule) (turns : Cycle.Turns x r ⟨⟩ r') (sound : r'.Sound engine)
      (sentence : r'.sentence = r.sentence) (pools : r'.facts.pools = Q)
  /-- A predicate failed, which spoils the rule. -/
  | aborts (e : Error) (r' : Rule) (kind : K (.error e)) (predicate : e.isPredicate = true)
      (turns : Cycle.Turns x r ⟨⟩ r') (spoilt : r'.Spoilt) (sentence : r'.sentence = r.sentence)
      (pools : r'.facts.pools = Q) (status : r'.status = r.status)
      (error : r'.lastError = some e.message)
  /-- Something else failed, which ends the run. -/
  | stops (e : Failure) (r' : Rule) (kind : K e) (serious : e.isPredicate = false)
      (breaks : Cycle.Breaks x r e r')

/-- How a cycle of a rule fails, on a batch that leads to some pools. -/
inductive Fails (K : Failure → Prop) (x : Routine Cycle Unit) (r : Rule) (Q : Pools) : Prop
  /-- A predicate failed, which spoils the rule. -/
  | aborts (e : Error) (r' : Rule) (kind : K (.error e)) (predicate : e.isPredicate = true)
      (turns : Cycle.Turns x r ⟨⟩ r') (spoilt : r'.Spoilt) (sentence : r'.sentence = r.sentence)
      (pools : r'.facts.pools = Q) (status : r'.status = r.status)
      (error : r'.lastError = some e.message)
  /-- Something else failed, which ends the run. -/
  | stops (e : Failure) (r' : Rule) (kind : K e) (serious : e.isPredicate = false)
      (breaks : Cycle.Breaks x r e r')

theorem Fails.ends {x : Routine Cycle Unit} (h : Fails K x r Q) : Ends engine K x r Q := by
  cases h with
  | aborts e r' hkind hpred hturns hspoilt hsent hpools hstatus herror =>
    exact .aborts e r' hkind hpred hturns hspoilt hsent hpools hstatus herror
  | stops e r' hkind hserious hbreaks => exact .stops e r' hkind hserious hbreaks

theorem cycle_turns_of_brings (h : Cycle.Brings engine (process engine strategy batch) r ⟨⟩ Q) :
    ∃ r', Cycle.Turns (cycle engine strategy batch) r ⟨⟩ r' ∧ r'.Sound engine ∧
      r'.sentence = r.sentence ∧ r'.facts.pools = Q := by
  obtain ⟨facts, tree, hturns, rfl, hu⟩ := h
  let r₁ : Rule := { r with facts := facts.clearDeltas, tree, dirty := false, lastError := none }
  have hu₁ : r₁.Upright engine := ⟨⟨hu.wellFormed, hu.keyed⟩, hu.tree, hu.linked⟩
  refine ⟨{ r₁ with status := r.sentence.formula.status engine.registry facts.pools }, ?_,
    ⟨⟨⟨hu.wellFormed, hu.keyed⟩, hu.tree, hu.linked⟩, rfl, rfl, rfl, rfl⟩, rfl, rfl⟩
  refine hturns.attempt.bind ((Cycle.turns_modifyFacts _ _).bind ?_)
  refine (Cycle.turns_modifyRule _ _).bind ((updateStatus_turns hu₁).bind ?_)
  refine Cycle.turns_get fun c hc => ?_
  rw [hc]
  exact Cycle.turns_ofExcept hu.check _

/-- A predicate error aborts the cycle, and the next one rebuilds the instantiation. -/
theorem cycle_aborts {e : Error} {facts : FactStore} {tree : Tree}
    (hb : Cycle.Breaks (process engine strategy batch) r (.error e) { r with facts, tree })
    (hp : e.isPredicate = true) :
    Cycle.Turns (cycle engine strategy batch) r ⟨⟩ { r with
      facts := facts.clearDeltas, tree, dirty := true, lastError := some e.message } := by
  refine hb.attempt.bind ((Cycle.turns_modifyFacts _ _).bind ?_)
  simp only [hp, if_true]
  exact Cycle.turns_modifyRule _ _

/-- Any other failure is handed on, with the facts and the instantiation that it left. -/
theorem cycle_breaks_of_process {e : Failure} {facts : FactStore} {tree : Tree}
    (hb : Cycle.Breaks (process engine strategy batch) r e { r with facts, tree })
    (hp : e.isPredicate = false) :
    Cycle.Breaks (cycle engine strategy batch) r e
      { r with facts := facts.clearDeltas, tree } := by
  refine hb.attempt.bind_breaks ((Cycle.turns_modifyFacts _ _).bind_breaks ?_)
  cases e with
  | crash c => exact Cycle.breaks_throw _ _
  | error e =>
    have hp' : e.isPredicate = false := hp
    simp only [hp', Bool.false_eq_true, if_false]
    exact Cycle.breaks_throw _ _

theorem fails_of_spoils (h : r.Proper) (hQ : r.facts.pools.after? batch = some Q)
    (hs : Cycle.Spoils K (process engine strategy batch) r Q) :
    Fails K (cycle engine strategy batch) r Q := by
  obtain ⟨e, facts, tree, hKe, hb, hP⟩ := hs
  cases hp : e.isPredicate with
  | false => exact .stops e _ hKe hp (cycle_breaks_of_process hb hp)
  | true =>
    have hpools : facts.pools = Q := hP (Failure.stops_of_isPredicate hp)
    cases e with
    | crash c => cases hp
    | error e =>
      exact .aborts e _ hKe hp (cycle_aborts hb hp)
        ⟨⟨h.wellFormed, hpools ▸ h.keyed.after? hQ⟩, rfl, rfl, rfl⟩ rfl hpools rfl rfl

/-- **Every cycle on a valid batch ends** so. -/
theorem cycle_ends (hK : Failure.CrashClosed K) (h : r.Rests engine)
    (hQ : r.facts.pools.after? batch = some Q)
    (ha : ∀ P, r.sentence.formula.Answers engine.registry K P ∅) (strategy : Strategy) :
    Ends engine K (cycle engine strategy batch) r Q := by
  rcases process_ends hK h hQ ha strategy with hb | hs
  · obtain ⟨r', hturns, hsound, hsent, hpools⟩ := cycle_turns_of_brings hb
    exact .succeeds r' hturns hsound hsent hpools
  · exact (fails_of_spoils h.toProper hQ hs).ends

/-- **A cycle of a rule whose predicates never fail** leaves it sound. -/
theorem cycle_turns (h : r.Rests engine) (hd : engine.registry.Decides r.sentence.formula)
    (hQ : r.facts.pools.after? batch = some Q) (strategy : Strategy) :
    ∃ r', Cycle.Turns (cycle engine strategy batch) r ⟨⟩ r' ∧ r'.Sound engine ∧
      r'.sentence = r.sentence ∧ r'.facts.pools = Q := by
  cases cycle_ends (K := fun _ => False) (fun _ h => h) h hQ
    (h.wellFormed.answers (hd.failsIn _)) strategy with
  | succeeds r' hturns hsound hsent hpools => exact ⟨r', hturns, hsound, hsent, hpools⟩
  | aborts e r' kind => exact kind.elim
  | stops e r' kind => exact kind.elim

end Rule

end RuleMonitor
