import RuleMonitor.Proofs.Routines
import RuleMonitor.Schedule.Probe

/-!
# What lasts

Whatever batch a rule gets, and whether a cycle succeeds or fails, the rule keeps its sentence. So does
each rule of a checker, and no work on rules counts merges, which only the scheduler does.

* `Cycle.Lasts`: a part of a cycle that keeps the sentence; `Rule.lasts_cycle`,
  `Rule.lasts_swapBranches`.
* `Checker.Outline`: the sentences of a checker and the number of merges that it counted.
* `Checker.Lasts`: a part of the work that keeps the outline; **`Checker.lasts_checkBatch`**,
  `Checker.lasts_replace`.
* **`Checker.addRule_ok`**: a rule that is registered.
-/

namespace RuleMonitor

open Std (ExtTreeMap)

open Routine

theorem Routine.keeps_ofExcept {σ ν α : Type} {v : σ → ν} (x : Except Failure α) :
    Keeps (fun _ => True) v (ofExcept x : Routine σ α) := by
  cases x with
  | ok a => exact keeps_pure a
  | error e => exact keeps_throw trivial

/-! ## Cycles -/

namespace Cycle

variable {α : Type}

/-- A part of a cycle keeps the sentence of the rule. -/
abbrev Lasts (x : Routine Cycle α) : Prop :=
  Keeps (fun _ => True) (fun c : Cycle => c.rule.sentence) x

theorem lasts_modifyRule {f : Rule → Rule} (hf : ∀ r, (f r).sentence = r.sentence) :
    Lasts (modifyRule f) :=
  keeps_modify fun c => hf c.rule

theorem lasts_enter (phase : Phase) : Lasts (enter phase) :=
  keeps_modify fun _ => rfl

theorem lasts_evaluate (x : Eval α) : Lasts (evaluate x) :=
  keeps_onPart (fun _ _ _ => by rfl) (keeps_any x)

theorem lasts_onFacts (x : Routine FactStore α) : Lasts (onFacts x) :=
  keeps_onPart (fun _ _ _ => by rfl) (keeps_any x)

theorem lasts_onTree (x : Routine Tree α) : Lasts (onTree x) :=
  keeps_onPart (fun _ _ _ => by rfl) (keeps_any x)

end Cycle

namespace Rule

open RuleMonitor.Cycle (Lasts)

variable (engine : Engine)

theorem lasts_generateLinks (focus : Focus) (concurrent : List Nat) :
    Lasts (generateLinks engine focus concurrent) :=
  (Cycle.lasts_enter _).bind fun _ => keeps_get.bind fun _ => (Cycle.lasts_evaluate _).bind fun _ =>
    Cycle.lasts_modifyRule fun _ => rfl

theorem lasts_findTruth (evaluate : Node → Eval (Bool × Node)) : Lasts (findTruth evaluate) :=
  keeps_get.bind fun _ => (keeps_ofExcept _).bind fun _ => (Cycle.lasts_enter _).bind fun _ =>
    (Cycle.lasts_evaluate _).bind fun _ => Cycle.lasts_modifyRule fun _ => rfl

theorem lasts_restructure (focus : Focus) (concurrent : List Nat) :
    Lasts (restructure engine focus concurrent) :=
  (Cycle.lasts_enter _).bind fun _ => keeps_get.bind fun _ => (Cycle.lasts_evaluate _).bind fun _ =>
    Cycle.lasts_onTree _

theorem lasts_rebuild (concurrent : Bool) : Lasts (rebuild engine concurrent) :=
  (Cycle.lasts_modifyRule fun _ => by rfl).bind fun _ => keeps_get.bind fun _ =>
    (Cycle.lasts_enter _).bind fun _ => (Cycle.lasts_evaluate _).bind fun _ =>
      (Cycle.lasts_onTree _).bind fun _ => (lasts_findTruth _).bind fun _ =>
        lasts_generateLinks engine _ _

theorem lasts_cycleFull (batch : List Change) (concurrent : Bool) :
    Lasts (cycleFull engine batch concurrent) :=
  (Cycle.lasts_onFacts _).bind fun _ => (Cycle.lasts_onFacts _).bind fun _ =>
    lasts_rebuild engine concurrent

theorem lasts_stepChange (change : Change) : Lasts (stepChange engine change) :=
  (Cycle.lasts_onFacts _).bind fun _ => (Cycle.lasts_onFacts _).bind fun _ =>
    (Cycle.lasts_onTree _).bind fun _ => (lasts_restructure engine _ _).bind fun _ =>
      keeps_get.bind fun _ => (lasts_findTruth _).bind fun _ => lasts_generateLinks engine _ _

theorem lasts_stepsOf (change : Change) : Lasts (stepsOf change) := by
  unfold stepsOf
  split
  · refine keeps_get.bind fun c => ?_
    split
    · exact keeps_pure _
    · exact keeps_throw trivial
  · exact keeps_pure _

theorem lasts_takeStep (failed : Option Error) (step : Change) :
    Lasts (takeStep engine failed step) := by
  cases failed with
  | some e => exact (Cycle.lasts_onFacts _).bind fun _ => keeps_pure _
  | none =>
    refine (lasts_stepChange engine step).attempt.bind fun outcome => ?_
    match outcome with
    | .ok _ => exact keeps_pure _
    | .error (.error e) => exact (keeps_throw trivial).ite (keeps_pure _)
    | .error (.crash c) => exact keeps_throw trivial

theorem lasts_takeSteps (steps : List Change) : ∀ failed, Lasts (takeSteps engine failed steps) := by
  induction steps with
  | nil => exact fun _ => keeps_pure _
  | cons step rest ih => exact fun failed => (lasts_takeStep engine failed step).bind ih

theorem lasts_takeChanges (batch : List Change) :
    ∀ failed, Lasts (takeChanges engine failed batch) := by
  induction batch with
  | nil => exact fun _ => keeps_pure _
  | cons change rest ih =>
    exact fun failed => (lasts_stepsOf change).bind fun steps =>
      (lasts_takeSteps engine steps failed).bind ih

theorem lasts_cycleChanges (batch : List Change) : Lasts (cycleChanges engine batch) := by
  refine (lasts_takeChanges engine batch none).bind fun failed => ?_
  cases failed with
  | some e => exact keeps_throw trivial
  | none => exact keeps_pure _

theorem lasts_cycleBatch (batch : List Change) (concurrent : Bool) :
    Lasts (cycleBatch engine batch concurrent) :=
  (Cycle.lasts_onFacts _).bind fun _ => (Cycle.lasts_onTree _).bind fun _ =>
    keeps_get.bind fun _ => (lasts_restructure engine _ _).bind fun _ => keeps_get.bind fun _ =>
      (lasts_findTruth _).bind fun _ => (lasts_generateLinks engine _ _).bind fun _ =>
        (Cycle.lasts_onTree _).ite (keeps_pure _)

theorem lasts_process (strategy : Strategy) (batch : List Change) :
    Lasts (process engine strategy batch) := by
  refine keeps_get.bind fun c => Keeps.ite (lasts_cycleFull engine batch false) ?_
  cases strategy with
  | full => exact lasts_cycleFull engine batch false
  | fullConcurrent => exact lasts_cycleFull engine batch true
  | change => exact lasts_cycleChanges engine batch
  | batch => exact lasts_cycleBatch engine batch false
  | batchConcurrent => exact lasts_cycleBatch engine batch true

theorem lasts_updateStatus : Lasts updateStatus :=
  keeps_get.bind fun _ => (keeps_ofExcept _).bind fun _ => Cycle.lasts_modifyRule fun _ => rfl

/-- **A cycle** keeps the sentence of its rule. -/
theorem lasts_cycle (strategy : Strategy) (batch : List Change) :
    Lasts (cycle engine strategy batch) := by
  refine (lasts_process engine strategy batch).attempt.bind fun outcome =>
    (Cycle.lasts_onFacts _).bind fun _ => ?_
  match outcome with
  | .ok _ =>
    exact (Cycle.lasts_modifyRule fun _ => by rfl).bind fun _ => lasts_updateStatus.bind fun _ =>
      keeps_get.bind fun _ => keeps_ofExcept _
  | .error (.error e) =>
    exact (Cycle.lasts_modifyRule fun _ => by rfl).ite (keeps_throw trivial)
  | .error (.crash c) => exact keeps_throw trivial

theorem lasts_swapBranches (pattern var : String) (del add : Context) (branches : List Nat) :
    Lasts (swapBranches pattern var del add branches) :=
  (keeps_forM (fun _ => Cycle.lasts_onTree _) branches).bind fun _ =>
    Keeps.check (Cycle.lasts_onTree _) ((Cycle.lasts_onFacts _).bind fun _ => lasts_updateStatus)

end Rule

/-! ## Checkers -/

namespace Checker

variable {α : Type}

/-- What work on the rules leaves alone. -/
structure Outline where
  sentence? : String → Option Sentence
  /-- The number of merges counted. -/
  merged : Nat

/-- The outline of a checker. -/
def outline (c : Checker) : Outline where
  sentence? id := c.rules[id]?.map (·.sentence)
  merged := c.counters.getD "merged" 0

/-- A part of the work keeps the outline. -/
abbrev Lasts (x : Routine Checker α) : Prop :=
  Keeps (fun _ => True) outline x

theorem lasts_note (level : NoteLevel) (text : String) : Lasts (note level text) :=
  keeps_modify fun _ => rfl

theorem lasts_enter (phase : Phase) : Lasts (enter phase) :=
  keeps_modify fun _ => rfl

theorem getD_count (c : Counters) (name other : String) (n : Nat) :
    (c.count name n).getD other 0 = if name = other then c.getD name 0 + n else c.getD other 0 := by
  unfold Counters.count
  rw [ExtTreeMap.getD_eq_getD_getElem?, Map.getElem?_insert]
  split_ifs
  · rfl
  · rw [ExtTreeMap.getD_eq_getD_getElem?]

theorem lasts_count {name : String} (h : name ≠ "merged") (n : Nat) : Lasts (count name n) := by
  refine keeps_modify fun c => ?_
  unfold outline
  rw [getD_count, if_neg h]

theorem outline_insert {c d : Checker} {id : String} {r r' : Rule} (hr : c.rules[id]? = some r)
    (hs : r'.sentence = r.sentence) (hc : d.counters = c.counters)
    (hd : d.rules = c.rules.insert id r') : d.outline = c.outline := by
  unfold outline
  rw [hd, hc]
  congr 1
  funext k
  rw [Map.getElem?_insert]
  split_ifs with h
  · rw [← h, hr, Option.map_some, Option.map_some, hs]
  · rfl

theorem lasts_onRule {x : Routine Cycle α} (hx : Cycle.Lasts x) (id : String) : Lasts (onRule id x) where
  ok {c a c'} h := by
    unfold onRule at h
    split at h
    · cases h
    · rename_i r hr
      split at h
      · rename_i cycle hok
        cases h
        exact outline_insert hr (hx.ok hok) rfl rfl
      · cases h
  error {c e c'} h := by
    unfold onRule at h
    split at h
    · cases h
      exact ⟨rfl, trivial⟩
    · rename_i r hr
      split at h
      · cases h
      · rename_i cycle herror
        cases h
        exact ⟨outline_insert hr (hx.error herror).1 rfl rfl, trivial⟩

theorem lasts_noteAborted (r : Rule) : Lasts (noteAborted r) := by
  unfold noteAborted
  split
  · exact lasts_note _ _
  · exact keeps_pure _

theorem lasts_noteRebuilt (r : Rule) : Lasts (noteRebuilt r) :=
  Keeps.ite ((lasts_count (by decide) _).bind fun _ => lasts_note _ _) (keeps_pure _)

theorem lasts_countFanOuts : Lasts countFanOuts :=
  keeps_get.bind fun _ => (lasts_count (by decide) _).bind fun _ => keeps_modify fun _ => rfl

/-- **A batch that is checked** leaves the outline alone. -/
theorem lasts_checkBatch (id : String) (batch : List Change) : Lasts (checkBatch id batch) :=
  keeps_get.bind fun _ => (keeps_ofExcept _).bind fun r => (lasts_enter _).bind fun _ =>
    (lasts_noteRebuilt r).bind fun _ => (lasts_onRule (Rule.lasts_cycle _ _ _) id).bind fun _ =>
      keeps_get.bind fun _ => (keeps_ofExcept _).bind fun r' => (lasts_noteAborted r').bind fun _ =>
        (lasts_count (by decide) _).bind fun _ => (lasts_count (by decide) _).bind fun _ =>
          lasts_countFanOuts.bind fun _ => (lasts_note _ _).bind fun _ => keeps_pure _

theorem lasts_replace (r : Replacement) : Lasts (replace r) :=
  lasts_onRule (Rule.lasts_swapBranches _ _ _ _ _) _

theorem sentence?_of_some {c : Checker} {id : String} {r : Rule} (h : c.rules[id]? = some r) :
    c.outline.sentence? id = some r.sentence :=
  congrArg (Option.map fun r : Rule => r.sentence) h

theorem sentence?_of_rule {c : Checker} {id : String} {r : Rule} (h : c.rule id = .ok r) :
    c.outline.sentence? id = some r.sentence := by
  unfold rule at h
  split at h
  · rename_i r' hr
    cases h
    exact sentence?_of_some hr
  · cases h

theorem checkBatch_ok {id : String} {batch : List Change} {c c' : Checker} {report : Report}
    (h : checkBatch id batch c = .ok report c') :
    ∃ s, c.outline.sentence? id = some s ∧ report.rule = s.rule := by
  unfold checkBatch at h
  rw [get_bind] at h
  obtain ⟨before, c₁, h₁, h⟩ := bind_eq_ok.mp h
  obtain ⟨-, rfl⟩ := ofExcept_eq_ok h₁
  obtain ⟨_, c₂, h₂, h⟩ := bind_eq_ok.mp h
  obtain ⟨_, c₃, h₃, h⟩ := bind_eq_ok.mp h
  obtain ⟨_, c₄, h₄, h⟩ := bind_eq_ok.mp h
  rw [get_bind] at h
  obtain ⟨r, c₅, h₅, h⟩ := bind_eq_ok.mp h
  have houtline : c₄.outline = c₁.outline :=
    ((lasts_onRule (Rule.lasts_cycle _ _ _) id).ok h₄).trans <|
      ((lasts_noteRebuilt before).ok h₃).trans ((lasts_enter _).ok h₂)
  refine ⟨r.sentence, houtline ▸ sentence?_of_rule (ofExcept_eq_ok h₅).1, ?_⟩
  -- What is left only says what was found.
  obtain ⟨_, _, -, h⟩ := bind_eq_ok.mp h
  obtain ⟨_, _, -, h⟩ := bind_eq_ok.mp h
  obtain ⟨_, _, -, h⟩ := bind_eq_ok.mp h
  obtain ⟨_, _, -, h⟩ := bind_eq_ok.mp h
  obtain ⟨_, _, -, h⟩ := bind_eq_ok.mp h
  cases h
  rfl

/-- **A rule is registered** under an identifier that is new. -/
theorem addRule_ok {s : Sentence} {facts : List Change} {c c' : Checker} {report : Report}
    (h : addRule s facts c = .ok report c') :
    c.outline.sentence? s.rule = none ∧ c'.outline.merged = c.outline.merged ∧
      ∀ id, c'.outline.sentence? id = if s.rule = id then some s else c.outline.sentence? id := by
  unfold addRule at h
  rw [get_bind] at h
  by_cases hnew : c.rules.contains s.rule = true
  · rw [if_pos hnew] at h
    cases h
  rw [if_neg hnew] at h
  obtain ⟨r, c₁, h₁, h⟩ := bind_eq_ok.mp h
  obtain ⟨_, c₂, h₂, h⟩ := bind_eq_ok.mp h
  obtain ⟨_, c₃, h₃, h⟩ := bind_eq_ok.mp h
  obtain ⟨_, c₄, h₄, h⟩ := bind_eq_ok.mp h
  cases h
  cases h₄
  -- The cycle works on a rule that the checker does not have yet.
  have hcycle : r.sentence = s ∧ c₁.outline = c.outline := by
    unfold onNewRule at h₁
    split at h₁
    · rename_i cycle hok
      cases h₁
      exact ⟨(Rule.lasts_cycle _ _ _).ok hok, rfl⟩
    · cases h₁
  have houtline : c₃.outline = c.outline :=
    ((lasts_note _ _).ok h₃).trans (((lasts_noteAborted r).ok h₂).trans hcycle.2)
  have hid : r.id = s.rule := congrArg (fun s => s.rule) hcycle.1
  refine ⟨?_, (congrArg Outline.merged houtline :), fun id => ?_⟩
  · rw [ExtTreeMap.contains_eq_isSome_getElem?, Bool.not_eq_true, Option.isSome_eq_false_iff,
      Option.isNone_iff_eq_none] at hnew
    exact congrArg (Option.map (·.sentence)) hnew
  · change ((c₃.rules.insert r.id r)[id]?).map (·.sentence) = _
    rw [Map.getElem?_insert, hid]
    split_ifs
    · rw [Option.map_some, hcycle.1]
    · exact congrFun (congrArg Outline.sentence? houtline) id

end Checker

end RuleMonitor
