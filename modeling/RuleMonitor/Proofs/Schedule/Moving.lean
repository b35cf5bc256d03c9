import RuleMonitor.Proofs.Schedule.Delivering

/-!
# What an event does to what waits

To each rule an event does one of five things: it leaves what waits as it is, a change is appended, a
change starts a new batch in the place of the one that waits, which is submitted, a change is cancelled
together with a waiting one, or what waits is flushed.

* `Event.Moves`: what an event does to what waits for a rule.
* `Event.Performed`: what an event does to a board.
* **`Event.intake_performed`**: a scheduler in batched mode performs every event that does not fail.
-/

namespace RuleMonitor

open Std (ExtTreeMap ExtTreeSet)

open Routine

/-! ## Batches of a rule -/

/-- The batches of a rule. -/
def batchesOf (rule : String) (log : List (String × List Change)) : List (List Change) :=
  (log.filter fun b => b.1 = rule).map Prod.snd

theorem batchesOf_append (rule : String) (log log' : List (String × List Change)) :
    batchesOf rule (log ++ log') = batchesOf rule log ++ batchesOf rule log' := by
  unfold batchesOf
  rw [List.filter_append, List.map_append]

/-- The batches that are due and not empty. -/
def nonempty (due : List (String × List Change)) : List (String × List Change) :=
  due.filter fun b => !b.2.isEmpty

/-- Of batches that are due to rules of their own, a rule has its own. -/
theorem batchesOf_nonempty {rules : List String} (g : String → List Change) (id : String)
    (h : rules.Nodup) : batchesOf id (nonempty (rules.map fun rule => (rule, g rule))) =
      if id ∈ rules ∧ g id ≠ [] then [g id] else [] := by
  have hkey : rules.filter (fun rule => decide (rule = id)) = if id ∈ rules then [id] else [] := by
    rw [List.filter_eq, h.count]
    split_ifs <;> rfl
  have hown : (rules.map fun rule => (rule, g rule)).filter (fun b => b.1 = id) =
      if id ∈ rules then [(id, g id)] else [] := by
    rw [List.filter_map]
    change (rules.filter fun rule => decide (rule = id)).map _ = _
    rw [hkey]
    split_ifs <;> rfl
  unfold batchesOf nonempty
  rw [List.filter_comm, hown]
  by_cases hid : id ∈ rules
  · rw [if_pos hid]
    cases hg : g id with
    | nil => rw [if_neg fun h' => h'.2 rfl]; rfl
    | cons c l => rw [if_pos ⟨hid, List.cons_ne_nil _ _⟩]; rfl
  · rw [if_neg hid, if_neg fun h' => hid h'.1]
    rfl

namespace Event

/-! ## Moves -/

/-- The change that is scheduled over a pattern of the sentence. -/
def change? (s : Sentence) : Event → Option Change
  | schedule change => if s.mentions change.pattern then some change else none
  | register .. | critical _ | flush => none

/-- The event registers a sentence. -/
def registers (s : Sentence) : Event → Bool
  | register s' _ => s' = s
  | schedule _ | critical _ | flush => false

open Scheduler (Board Cancelling)

/-- What an event does to what waits for a rule, which has a sentence if it is registered: the pending
batch before and after it, the batches that are submitted, and the position of the waiting change that a
change is merged with. -/
inductive Moves (critical : ExtTreeSet Nat) (s? : Option Sentence) : Event → List Change →
    List Change → List (List Change) → Option Nat → Prop
  /-- No change concerns the rule, and nothing is submitted. -/
  | rest {e : Event} {pending : List Change} (unconcerned : ∀ s ∈ s?, e.change? s = none) :
      Moves critical s? e pending pending [] none
  | append {e : Event} {pending : List Change} {s : Sentence} {change : Change} (rule : s? = some s)
      (concerned : e.change? s = some change) :
      Moves critical s? e pending (pending ++ [change]) [] none
  /-- The change starts a new batch. -/
  | turn {e : Event} {pending : List Change} {s : Sentence} {change : Change} (rule : s? = some s)
      (concerned : e.change? s = some change) (waiting : pending ≠ []) :
      Moves critical s? e pending [change] [pending] none
  /-- The change is merged. -/
  | cancel {e : Event} {pending : List Change} {s : Sentence} {change other : Change} {i : Nat}
      (rule : s? = some s) (concerned : e.change? s = some change) (at_i : pending[i]? = some other)
      (cancelling : Cancelling critical change other) :
      Moves critical s? e pending (pending.eraseIdx i) [] (some i)
  | flush {pending : List Change} (waiting : pending ≠ []) :
      Moves critical s? .flush pending [] [pending] none

/-- What an event does to a board, where each of some rules merges the change with the waiting change at
a position. -/
structure Performed (e : Event) (b b' : Board) (log : List (String × List Change))
    (ms : List (String × Nat)) : Prop where
  mode : b'.mode = b.mode
  next : b'.next = ∅
  critical : ∀ id, b'.critical.contains id = true ↔ b.critical.contains id = true ∨ e = .critical id
  sentence? : ∀ id s, b'.outline.sentence? id = some s ↔
    b.outline.sentence? id = some s ∨ e.registers s = true ∧ s.rule = id
  fresh : ∀ s, e.registers s = true → b.outline.sentence? s.rule = none
  merged : b'.outline.merged = b.outline.merged + ms.length
  distinct : (ms.map Prod.fst).Nodup
  among : ∀ m ∈ ms, (b.outline.sentence? m.1).isSome = true
  moves : ∀ id, ∃ o, Moves b.critical (b.outline.sentence? id) e (b.pendingOf id) (b'.pendingOf id)
    (batchesOf id log) o ∧ ∀ i, (id, i) ∈ ms ↔ o = some i

end Event

/-! ## Rules over a pattern -/

/-- Sentences are registered under their identifiers. -/
def Checker.Outline.Keyed (o : Checker.Outline) : Prop :=
  ∀ id s, o.sentence? id = some s → s.rule = id

namespace Checker

variable {c : Checker} (h : c.outline.Keyed)

include h

theorem mem_rulesOver {id pattern : String} : id ∈ c.rulesOver pattern ↔
    ∃ s, c.outline.sentence? id = some s ∧ s.mentions pattern = true := by
  unfold rulesOver ruleList
  rw [List.mem_map]
  constructor
  · rintro ⟨r, hr, rfl⟩
    obtain ⟨hr, hm⟩ := List.mem_filter.mp hr
    obtain ⟨k, hk⟩ := Map.mem_values.mp hr
    have hs := sentence?_of_some hk
    obtain rfl : r.id = k := h k _ hs
    exact ⟨r.sentence, hs, hm⟩
  · rintro ⟨s, hs, hm⟩
    obtain ⟨r, hr, rfl⟩ := Option.map_eq_some_iff.mp hs
    exact ⟨r, List.mem_filter.mpr ⟨Map.mem_values.mpr ⟨id, hr⟩, hm⟩, h id _ hs⟩

theorem nodup_rulesOver (pattern : String) : (c.rulesOver pattern).Nodup := by
  have hkeys : (c.ruleList.map Rule.id).Nodup := Map.nodup_map_values fun k r hr =>
    h k _ (sentence?_of_some hr)
  exact (List.filter_sublist.map _).nodup hkeys

end Checker

/-! ## Events that happen -/

namespace Scheduler

/-- A board between two events, in batched mode. -/
structure Board.Idle (b : Board) : Prop where
  mode : b.mode = .batched
  next : b.next = ∅
  keyed : b.outline.Keyed

variable {σ σ' : Scheduler} {change : Change} {due : List (String × List Change)}

theorem turnOver_ok (h : turnOver σ = .ok due σ') :
    σ'.board = { σ.board with pending := σ'.pending, next := ∅ } ∧
      ∀ id, σ'.board.pendingOf id = σ.board.next[id]?.getD (σ.board.pendingOf id) ∧
        batchesOf id (nonempty due) =
          if σ.board.next[id]?.isSome = true ∧ σ.board.pendingOf id ≠ [] then [σ.board.pendingOf id]
          else [] := by
  cases h
  refine ⟨rfl, fun id => ⟨?_, ?_⟩⟩
  · change (σ.pending.insertMany σ.next.toList).getD id [] = _
    rw [ExtTreeMap.getD_eq_getD_getElem?, Map.getElem?_insertMany_toList]
    unfold Board.pendingOf
    rw [ExtTreeMap.getD_eq_getD_getElem?]
    change _ = σ.next[id]?.getD (σ.pending[id]?.getD [])
    cases σ.next[id]? <;> rfl
  · have hdue : (σ.next.toList.map fun e => (e.1, σ.pendingOf e.1)) =
        σ.next.keys.map fun id => (id, σ.board.pendingOf id) := by
      rw [← ExtTreeMap.map_fst_toList_eq_keys, List.map_map]
      rfl
    rw [hdue, batchesOf_nonempty _ _ ExtTreeMap.nodup_keys]
    refine if_congr (and_congr_left' ?_) rfl rfl
    rw [ExtTreeMap.mem_keys, ExtTreeMap.mem_iff_isSome_getElem?]
    rfl

/-- What a rule takes moves what waits for it once the next batches are in place. -/
theorem Takes.moves {critical : ExtTreeSet Nat} {pending pending' : List Change}
    {next : Option (List Change)} {o : Option Nat} {e : Event} {s : Sentence}
    (h : Takes critical change pending pending' next o) (hc : e.change? s = some change) :
    e.Moves critical (some s) pending (next.getD pending')
      (if next.isSome = true ∧ pending' ≠ [] then [pending'] else []) o := by
  cases h with
  | append => exact .append rfl hc
  | defer waiting =>
    rw [if_pos ⟨rfl, waiting⟩]
    exact .turn rfl hc waiting
  | cancel at_i cancelling => exact .cancel rfl hc at_i cancelling

/-- **A change that is taken in** moves what waits for the rules over its pattern. -/
theorem intake_performed (h : intake change σ = .ok due σ') (hi : σ.board.Idle) :
    ∃ ms, Event.Performed (.schedule change) σ.board σ'.board (nonempty due) ms := by
  rw [intake_of_batched hi.mode] at h
  obtain ⟨u, σ₁, htakes, hturn⟩ := bind_eq_ok.mp h
  have hover : ∀ id, id ∈ σ.checker.rulesOver change.pattern ↔
      ∃ s, σ.board.outline.sentence? id = some s ∧ s.mentions change.pattern = true :=
    fun id => Checker.mem_rulesOver hi.keyed
  have hnext : ∀ id, σ.board.next[id]? = none := fun id => by
    rw [hi.next, ExtTreeMap.getElem?_empty]
  obtain ⟨ms, hms⟩ := takes_ok (Checker.nodup_rulesOver hi.keyed _) (fun id _ => hnext id) htakes
  obtain ⟨hboard, hturned⟩ := turnOver_ok hturn
  have hsentence : σ'.board.outline.sentence? = σ.board.outline.sentence? := by
    rw [hboard]
    exact hms.sentence?
  have hcritical : σ'.board.critical = σ.board.critical := by
    rw [hboard]
    exact hms.critical
  exact ⟨ms, {
    mode := by rw [hboard]; exact hms.mode
    next := by rw [hboard]
    critical := fun id => by rw [hcritical]; exact (or_iff_left nofun).symm
    sentence? := fun id s => by rw [hsentence]; exact (or_iff_left nofun).symm
    fresh := nofun
    merged := by rw [hboard]; exact hms.merged
    distinct := hms.distinct
    among := fun m hm => by
      obtain ⟨s, hs, -⟩ := (hover m.1).mp (hms.among m hm)
      exact Option.isSome_iff_exists.mpr ⟨s, hs⟩
    moves := fun id => by
      obtain ⟨hpending, hbatches⟩ := hturned id
      rw [hpending, hbatches]
      by_cases hid : id ∈ σ.checker.rulesOver change.pattern
      · obtain ⟨s, hs, hmentions⟩ := (hover id).mp hid
        obtain ⟨o, ho, hiff⟩ := hms.takes id hid
        refine ⟨o, ?_, hiff⟩
        rw [hs]
        exact ho.moves (if_pos hmentions)
      · obtain ⟨hp, hn⟩ := hms.others id hid
        refine ⟨none, ?_, fun i => ⟨fun hm => absurd (hms.among _ hm) hid, nofun⟩⟩
        rw [hp, hn, hnext]
        exact .rest fun s hs => if_neg fun hmentions => hid ((hover id).mpr ⟨s, hs, hmentions⟩) }⟩

end Scheduler

namespace Event

open Scheduler (Board)

variable {σ σ' : Scheduler} {due : List (String × List Change)}

theorem rests {e : Event} {b b' : Board} {id : String} (hc : ∀ s, e.change? s = none)
    (hp : b'.pendingOf id = b.pendingOf id) :
    ∃ o, Moves b.critical (b.outline.sentence? id) e (b.pendingOf id) (b'.pendingOf id)
      (batchesOf id []) o ∧ ∀ i, (id, i) ∈ ([] : List (String × Nat)) ↔ o = some i :=
  ⟨none, hp ▸ .rest fun s _ => hc s, fun _ => ⟨nofun, nofun⟩⟩

/-- **A rule that is registered** has its sentence, and nothing waits for it yet. -/
theorem register_performed {s : Sentence} {facts : List Change}
    (h : (Event.register s facts).intake σ = .ok due σ') (hi : σ.board.Idle) :
    (Event.register s facts).Performed σ.board σ'.board (nonempty due) [] := by
  obtain ⟨report, σ₁, h₁, h⟩ := bind_eq_ok.mp h
  cases h
  obtain ⟨c, hc, rfl⟩ := exists_of_onPart h₁
  obtain ⟨hfresh, hmerged, hsentence⟩ := Checker.addRule_ok hc
  have hregisters : ∀ s', (Event.register s facts).registers s' = true ↔ s = s' := fun s' =>
    decide_eq_true_iff
  exact {
    mode := rfl
    next := hi.next
    critical := fun id => (or_iff_left nofun).symm
    sentence? := fun id s' => by
      change c.outline.sentence? id = some s' ↔ σ.checker.outline.sentence? id = some s' ∨ _
      rw [hsentence, hregisters]
      split_ifs with hid
      · rw [← hid, hfresh, Option.some.injEq, or_iff_right nofun]
        exact ⟨fun e => ⟨e, e ▸ rfl⟩, And.left⟩
      · refine (or_iff_left ?_).symm
        rintro ⟨rfl, e⟩
        exact hid e
    fresh := fun s' hs' => (hregisters s').mp hs' ▸ hfresh
    merged := hmerged
    distinct := List.nodup_nil
    among := nofun
    moves := fun _ => rests (fun _ => rfl) rfl }

theorem critical_performed {id : Nat} (h : (Event.critical id).intake σ = .ok due σ')
    (hi : σ.board.Idle) : (Event.critical id).Performed σ.board σ'.board (nonempty due) [] := by
  cases h
  exact {
    mode := rfl
    next := hi.next
    critical := fun k => by
      change (σ.critical.insert id).contains k = true ↔ σ.critical.contains k = true ∨ _
      rw [ExtTreeSet.contains_insert, Bool.or_eq_true, beq_iff_eq, Nat.compare_eq_eq, or_comm,
        Event.critical.injEq]
    sentence? := fun _ _ => (or_iff_left (fun h => Bool.false_ne_true h.1)).symm
    fresh := nofun
    merged := rfl
    distinct := List.nodup_nil
    among := nofun
    moves := fun _ => rests (fun _ => rfl) rfl }

/-- **A flush** submits all that waits. -/
theorem flush_performed (h : Event.flush.intake σ = .ok due σ') (hi : σ.board.Idle) :
    Event.flush.Performed σ.board σ'.board (nonempty due) [] := by
  cases h
  have hdue : σ.pending.toList = σ.pending.keys.map fun id => (id, σ.board.pendingOf id) := by
    rw [← ExtTreeMap.map_fst_toList_eq_keys, List.map_map]
    refine (List.map_id _).symm.trans (List.map_congr_left fun e he => ?_)
    exact Prod.ext rfl (Scheduler.pendingOf_of_some
      (ExtTreeMap.mem_toList_iff_getElem?_eq_some.mp he)).symm
  have hpending : ∀ id, ({ σ with pending := ∅ } : Scheduler).board.pendingOf id = [] := fun id =>
    Scheduler.pendingOf_of_none (σ := { σ with pending := ∅ }) ExtTreeMap.getElem?_empty
  exact {
    mode := rfl
    next := hi.next
    critical := fun id => (or_iff_left nofun).symm
    sentence? := fun _ _ => (or_iff_left (fun h => Bool.false_ne_true h.1)).symm
    fresh := nofun
    merged := rfl
    distinct := List.nodup_nil
    among := nofun
    moves := fun id => by
      refine ⟨none, ?_, fun i => ⟨nofun, nofun⟩⟩
      rw [hpending, hdue, batchesOf_nonempty _ _ ExtTreeMap.nodup_keys]
      by_cases hwaiting : σ.board.pendingOf id = []
      · rw [if_neg fun h => h.2 hwaiting, hwaiting]
        exact .rest fun _ _ => rfl
      · have hid : id ∈ σ.pending.keys := by
          rw [ExtTreeMap.mem_keys, ExtTreeMap.mem_iff_isSome_getElem?]
          by_contra hn
          rw [Option.not_isSome_iff_eq_none] at hn
          exact hwaiting (Scheduler.pendingOf_of_none hn)
        rw [if_pos ⟨hid, hwaiting⟩]
        exact .flush hwaiting }

/-- **An event that does not fail** is performed. -/
theorem intake_performed {e : Event} (h : e.intake σ = .ok due σ') (hi : σ.board.Idle) :
    ∃ ms, e.Performed σ.board σ'.board (nonempty due) ms := by
  cases e with
  | schedule change => exact Scheduler.intake_performed h hi
  | register s facts => exact ⟨[], register_performed h hi⟩
  | critical id => exact ⟨[], critical_performed h hi⟩
  | flush => exact ⟨[], flush_performed h hi⟩

end Event

end RuleMonitor
