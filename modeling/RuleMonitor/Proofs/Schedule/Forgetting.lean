import RuleMonitor.Proofs.Rules.Rebuilding
import RuleMonitor.Proofs.Schedule.Separating

/-!
# Changes that are forgotten

When the batches of many rules are submitted one after the other, a cycle that fails ends the round. The
rules before it were reported on, and the rules after it are left alone: their facts, their trees and
their statuses stay as they were. But what the round had taken out of the scheduler by then does not come
back. A flush takes all pending batches, so nothing waits any more for the rules that it did not come
to. The round that closes batches takes the changes that start the next ones: what is pending for the
rules that it did not come to goes on waiting, and their next changes are gone.

* `Scheduler.round`: both rounds; `Scheduler.round_error`: where a round ends.
* `Scheduler.keeps_share_round`: rules that a round does not come to.
* `Scheduler.StillWaits`: no change of a rule was lost.
* **`Scheduler.failed_rounds_forget`**: what a round that fails leaves to the other rules.
* `Scheduler.flush_forgets`: a rule that another one costs its changes.
-/

namespace RuleMonitor

open Std (ExtTreeMap)

open Routine

/-! ## Rules that are left alone -/

namespace Checker

variable {α : Type} {id k : String}

/-- A part of the work leaves a rule alone, whether it succeeds or fails. -/
abbrev Spares (k : String) (x : Routine Checker α) : Prop :=
  Routine.Keeps (fun _ => True) (fun c : Checker => c.rules[k]?) x

theorem spares_count (name : String) (n : Nat) : Spares k (count name n) :=
  keeps_modify fun _ => rfl

theorem spares_note (level : NoteLevel) (text : String) : Spares k (note level text) :=
  keeps_modify fun _ => rfl

theorem spares_enter (phase : Phase) : Spares k (enter phase) :=
  keeps_modify fun _ => rfl

theorem spares_noteAborted (r : Rule) : Spares k (noteAborted r) := by
  unfold noteAborted
  split
  · exact spares_note _ _
  · exact keeps_pure _

theorem spares_noteRebuilt (r : Rule) : Spares k (noteRebuilt r) :=
  Routine.Keeps.ite ((spares_count _ _).bind fun _ => spares_note _ _) (keeps_pure _)

theorem spares_countFanOuts : Spares k countFanOuts :=
  keeps_get.bind fun _ => (spares_count _ _).bind fun _ => keeps_modify fun _ => rfl

theorem spares_onRule (hk : k ≠ id) (x : Routine Cycle α) : Spares k (onRule id x) where
  ok {c a c'} h := by
    unfold onRule at h
    split at h
    · cases h
    · split at h
      · cases h
        exact (Map.getElem?_insert _ _ _ _).trans (if_neg hk.symm)
      · cases h
  error {c e c'} h := by
    unfold onRule at h
    split at h
    · cases h
      exact ⟨rfl, trivial⟩
    · split at h
      · cases h
      · cases h
        exact ⟨(Map.getElem?_insert _ _ _ _).trans (if_neg hk.symm), trivial⟩

/-- **A batch that is checked** leaves the other rules alone, even if its cycle fails. -/
theorem spares_checkBatch (hk : k ≠ id) (batch : List Change) : Spares k (checkBatch id batch) :=
  keeps_get.bind fun _ => (keeps_ofExcept _).bind fun r => (spares_enter _).bind fun _ =>
    (spares_noteRebuilt r).bind fun _ => (spares_onRule hk _).bind fun _ =>
      keeps_get.bind fun _ => (keeps_ofExcept _).bind fun r' => (spares_noteAborted r').bind fun _ =>
        (spares_count _ _).bind fun _ => (spares_count _ _).bind fun _ =>
          spares_countFanOuts.bind fun _ => (spares_note _ _).bind fun _ => keeps_pure _

end Checker

namespace Scheduler

variable {σ σ' : Scheduler} {e : Failure} {k : String}

/-- A batch that is submitted leaves to the other rules what they have. -/
theorem keeps_share_submit {rule : String} (hk : k ≠ rule) (batch : List Change) :
    Keeps (fun _ => True) (share · k) (submit rule batch) := by
  refine keeps_onPart (fun c σ hc => ?_)
    ((Checker.spares_count "batches" 1).bind fun _ => Checker.spares_checkBatch hk batch)
  unfold share
  rw [hc]

/-! ## Rounds -/

/-- Finds the batch of each entry, and submits it unless it is empty. -/
def round (find : String × List Change → Routine Scheduler (List Change)) :
    List (String × List Change) → Routine Scheduler (List Report)
  | [] => return []
  | b :: rest => do
    let batch ← find b
    if batch.isEmpty then round find rest
    else
      let report ← submit b.1 batch
      let reports ← round find rest
      return report :: reports

/-- Puts a batch in the place of the one that is pending for a rule, and answers the latter. -/
def exchangePending (b : String × List Change) : Routine Scheduler (List Change) := do
  let s ← get
  set { s with pending := s.pending.insert b.1 b.2 }
  return s.pendingOf b.1

theorem submitAll_eq_round (due : List (String × List Change)) :
    submitAll due = round (fun b => pure b.2) due := by
  induction due with
  | nil => rfl
  | cons b due ih =>
    funext σ
    rw [submitAll, round, ih]
    rfl

theorem submitNext_eq_round (due : List (String × List Change)) :
    submitNext due = round exchangePending due := by
  induction due with
  | nil => rfl
  | cons b due ih =>
    funext σ
    rw [submitNext, round, ih]
    rfl

/-- Finding a batch does not fail, and leaves to the other rules what they have. -/
structure Collects (find : String × List Change → Routine Scheduler (List Change)) : Prop where
  ok : ∀ b σ, ∃ batch σ', find b σ = .ok batch σ'
  share : ∀ {b k}, k ≠ b.1 → Keeps (fun _ => True) (share · k) (find b)

theorem collects_pure : Collects fun b => pure b.2 where
  ok b σ := ⟨b.2, σ, rfl⟩
  share _ := keeps_pure _

theorem collects_exchangePending : Collects exchangePending where
  ok b σ := ⟨_, _, rfl⟩
  share {b k} hk := by
    refine ⟨fun {σ a σ'} h => ?_, fun h => nomatch h⟩
    cases h
    have hpending : (σ.pending.insert b.1 b.2)[k]? = σ.pending[k]? :=
      (Map.getElem?_insert _ _ _ _).trans (if_neg hk.symm)
    unfold Scheduler.share
    rw [hpending]

section Round

variable {find : String × List Change → Routine Scheduler (List Change)} (hfind : Collects find)
  {due : List (String × List Change)}

include hfind

/-- **A round** leaves to the rules that it does not come to what they have. -/
theorem keeps_share_round (hk : k ∉ due.map Prod.fst) :
    Keeps (fun _ => True) (share · k) (round find due) := by
  induction due with
  | nil => exact keeps_pure _
  | cons b due ih =>
    rw [List.map_cons, List.mem_cons, not_or] at hk
    have hrest := ih hk.2
    exact (hfind.share hk.1).bind fun batch => Keeps.ite hrest
      ((keeps_share_submit hk.1 batch).bind fun _ => hrest.bind fun _ => keeps_pure _)

/-- **A round that fails** ends at a rule whose batch is submitted and fails, after the rules before it
were dealt with. The rules behind it are not come to. -/
theorem round_error (h : round find due σ = .error e σ') :
    ∃ before b after reports σ₁ batch σ₂, due = before ++ b :: after ∧
      round find before σ = .ok reports σ₁ ∧ find b σ₁ = .ok batch σ₂ ∧
      submit b.1 batch σ₂ = .error e σ' := by
  induction due generalizing σ with
  | nil => exact nomatch h
  | cons b due ih =>
    obtain ⟨batch, σ₁, hbatch⟩ := hfind.ok b σ
    unfold round at h
    rw [bind_ok hbatch] at h
    by_cases hempty : batch.isEmpty = true
    · rw [if_pos hempty] at h
      obtain ⟨before, b', after, reports, σ₂, batch', σ₃, rfl, hbefore, hrest⟩ := ih h
      refine ⟨b :: before, b', after, reports, σ₂, batch', σ₃, rfl, ?_, hrest⟩
      rw [round, bind_ok hbatch, if_pos hempty, hbefore]
    · rw [if_neg hempty] at h
      rcases Routine.bind_eq_error.mp h with h | ⟨report, σ₂, hreport, h⟩
      · exact ⟨[], b, due, [], σ, batch, σ₁, rfl, rfl, hbatch, h⟩
      · rcases Routine.bind_eq_error.mp h with h | ⟨reports, σ₃, -, h⟩
        · obtain ⟨before, b', after, reports, σ₃, batch', σ₄, rfl, hbefore, hrest⟩ := ih h
          refine ⟨b :: before, b', after, report :: reports, σ₃, batch', σ₄, rfl, ?_, hrest⟩
          rw [round, bind_ok hbatch, if_neg hempty, bind_ok hreport, bind_ok hbefore]
          rfl
        · exact nomatch h

omit hfind in
/-- No rule is come to before the first one, if its batch is submitted and fails. -/
theorem eq_first_of_round {b b' : String × List Change} {before after : List (String × List Change)}
    {batch : List Change} {reports : List Report} {σ₁ σ₂ : Scheduler}
    (hdue : b :: due = before ++ b' :: after) (hbefore : round find before σ = .ok reports σ₂)
    (hbatch : find b σ = .ok batch σ₁) (hne : batch.isEmpty = false)
    (hsubmit : submit b.1 batch σ₁ = .error e σ') : before = [] ∧ b' = b := by
  cases before with
  | nil => exact ⟨rfl, (List.cons.inj hdue).1.symm⟩
  | cons first before =>
    obtain ⟨rfl, -⟩ := List.cons.inj hdue
    rw [round, bind_ok hbatch, hne, if_neg Bool.false_ne_true, bind_error hsubmit] at hbefore
    cases hbefore

/-- A rule has after a round that failed before it what it had before the round. -/
theorem share_of_round {b : String × List Change} {reports : List Report} {batch : List Change}
    {σ₁ σ₂ : Scheduler} (hbefore : round find due σ = .ok reports σ₁)
    (hbatch : find b σ₁ = .ok batch σ₂) (hsubmit : submit b.1 batch σ₂ = .error e σ')
    (hb : k ≠ b.1) (hk : k ∉ due.map Prod.fst) : σ'.share k = σ.share k := by
  have hround : σ₁.share k = σ.share k := (keeps_share_round hfind hk).ok hbefore
  have hfound : σ₂.share k = σ₁.share k := (hfind.share hb).ok hbatch
  exact ((keeps_share_submit hb batch).error hsubmit).1.trans (hfound.trans hround)

end Round

/-! ## What is forgotten -/

/-- All changes that were pending for a rule, or to start its next batch, still are. -/
def StillWaits (σ σ' : Scheduler) (k : String) : Prop :=
  σ'.pendingOf k = σ.pendingOf k ∧ σ'.next.getD k [] = σ.next.getD k []

theorem pendingOf_eq_of_share {τ : Scheduler} (h : (τ.share k).pending = (σ.share k).pending) :
    τ.pendingOf k = σ.pendingOf k := by
  have hpending : τ.pending[k]? = σ.pending[k]? := h
  unfold pendingOf
  rw [ExtTreeMap.getD_eq_getD_getElem?, hpending, ← ExtTreeMap.getD_eq_getD_getElem?]

theorem next_eq_of_share {τ : Scheduler} (h : (τ.share k).next = (σ.share k).next) :
    τ.next.getD k [] = σ.next.getD k [] := by
  have hnext : τ.next[k]? = σ.next[k]? := h
  rw [ExtTreeMap.getD_eq_getD_getElem?, hnext, ← ExtTreeMap.getD_eq_getD_getElem?]

theorem stillWaits_flush (h : σ'.share k = ({ σ with pending := ∅ } : Scheduler).share k) :
    σ'.share k = { σ.share k with pending := none } ∧
      (σ.StillWaits σ' k ↔ σ.pendingOf k = []) := by
  have hpending : σ'.pendingOf k = [] :=
    (pendingOf_eq_of_share (congrArg Share.pending h)).trans ExtTreeMap.getD_empty
  have hnext : σ'.next.getD k [] = σ.next.getD k [] :=
    next_eq_of_share (σ := { σ with pending := ∅ }) (congrArg Share.next h)
  refine ⟨?_, fun hstill => hstill.1.symm.trans hpending, fun hnone => ⟨hpending.trans hnone.symm, hnext⟩⟩
  rw [h, share, share, ExtTreeMap.getElem?_empty]

/-- A rule that the round that closes batches did not come to has no change for its next batch any
more. -/
theorem stillWaits_close (h : σ'.share k = ({ σ with next := ∅ } : Scheduler).share k) :
    σ'.share k = { σ.share k with next := none } ∧
      (σ.StillWaits σ' k ↔ σ.next.getD k [] = []) := by
  have hpending : σ'.pendingOf k = σ.pendingOf k :=
    pendingOf_eq_of_share (σ := { σ with next := ∅ }) (congrArg Share.pending h)
  have hnext : σ'.next.getD k [] = [] :=
    (next_eq_of_share (congrArg Share.next h)).trans ExtTreeMap.getD_empty
  refine ⟨?_, fun hstill => hstill.2.symm.trans hnext, fun hnone => ⟨hpending, hnext.trans hnone.symm⟩⟩
  rw [h, share, share, ExtTreeMap.getElem?_empty]

/-- A change is scheduled in batched mode: the rules take it, and batches that are then closed are
submitted. -/
theorem schedule_of_takes {change : Change} {σ₀ : Scheduler} (hmode : σ.mode = .batched)
    (htakes : (σ.checker.rulesOver change.pattern).forM (take · change) σ = .ok ⟨⟩ σ₀) :
    schedule change σ = submitNext σ₀.next.toList { σ₀ with next := ∅ } := by
  unfold schedule
  rw [get_bind, get_bind, hmode]
  exact bind_ok htakes

/-- **A round that fails** reports on some rules and ends at the one whose cycle fails. Each other rule
is left as it was by a flush, except that nothing is pending for it any more; so it keeps its changes if
and only if it had none. By the round that closes batches, after a change was taken in, each other rule
is left as it was with what is pending for it, but its next changes are gone; so it keeps its changes if
and only if none of them was to start a new batch. -/
theorem failed_rounds_forget {σ σ' : Scheduler} {e : Failure} :
    (flush σ = .error e σ' →
      ∃ before rule batch after reports σ₁,
        σ.pending.toList = before ++ (rule, batch) :: after ∧
        submitAll before { σ with pending := ∅ } = .ok reports σ₁ ∧
        submit rule batch σ₁ = .error e σ' ∧
        ∀ k, k ≠ rule → k ∉ before.map Prod.fst →
          σ'.share k = { σ.share k with pending := none } ∧
            (σ.StillWaits σ' k ↔ σ.pendingOf k = [])) ∧
    ∀ (change : Change) (σ₀ : Scheduler), σ.mode = .batched →
      (σ.checker.rulesOver change.pattern).forM (take · change) σ = .ok ⟨⟩ σ₀ →
      schedule change σ = .error e σ' →
      ∃ before rule next after reports σ₁,
        σ₀.next.toList = before ++ (rule, next) :: after ∧
        submitNext before { σ₀ with next := ∅ } = .ok reports σ₁ ∧
        submit rule (σ₁.pendingOf rule) { σ₁ with pending := σ₁.pending.insert rule next } =
          .error e σ' ∧
        ∀ k, k ≠ rule → k ∉ before.map Prod.fst →
          σ'.share k = { σ₀.share k with next := none } ∧
            (σ₀.StillWaits σ' k ↔ σ₀.next.getD k [] = []) := by
  refine ⟨fun h => ?_, fun change σ₀ hmode htakes h => ?_⟩
  · change submitAll σ.pending.toList { σ with pending := ∅ } = _ at h
    rw [submitAll_eq_round] at h
    obtain ⟨before, b, after, reports, σ₁, batch, σ₂, hdue, hbefore, hbatch, hsubmit⟩ :=
      round_error collects_pure h
    obtain ⟨rfl, rfl⟩ := EStateM.Result.ok.inj hbatch
    refine ⟨before, b.1, b.2, after, reports, σ₁, hdue, by rw [submitAll_eq_round, hbefore], hsubmit,
      fun k hb hk => stillWaits_flush ?_⟩
    exact share_of_round collects_pure hbefore rfl hsubmit hb hk
  · rw [schedule_of_takes hmode htakes, submitNext_eq_round] at h
    obtain ⟨before, b, after, reports, σ₁, batch, σ₂, hdue, hbefore, hbatch, hsubmit⟩ :=
      round_error collects_exchangePending h
    obtain ⟨rfl, rfl⟩ := EStateM.Result.ok.inj hbatch
    refine ⟨before, b.1, b.2, after, reports, σ₁, hdue, by rw [submitNext_eq_round, hbefore], hsubmit,
      fun k hb hk => stillWaits_close ?_⟩
    exact share_of_round collects_exchangePending hbefore rfl hsubmit hb hk

end Scheduler

/-! ## A sample -/

namespace Sample

/-- Every sensor is whole. -/
def fragile : Sentence where
  rule := "fragile"
  nodes := [.application ⟨"whole", [("v1", "x")]⟩,
    .quantified { kind := .universal, var := "x", pattern := "sensor" } 0]
  root := 1
  formula := .quantified 1 { kind := .universal, var := "x", pattern := "sensor" }
    (.application 0 ⟨"whole", [("v1", "x")]⟩)

/-- A sensor that is still comes, and it is broken. -/
def wreck : Change :=
  ⟨.addition, "sensor", 0, ((∅ : Attributes).insert "state" "0").insert "boom" "x"⟩

/-- The change waits for two rules, the first of which it will break. -/
def waiting : Scheduler :=
  (Scheduler.performAll [.register fragile [change .addition 1 "1"],
    .register lively [change .addition 1 "1"], .schedule wreck]).after
      (Scheduler.start .batched {} watch.registry)

/-- The other sensor goes. -/
def leaving : Change := change .deletion 1 "1"

/-- The rules over the sensors take the other sensor's change in: it closes both batches. -/
def closing : Scheduler :=
  ((waiting.checker.rulesOver "sensor").forM (Scheduler.take · leaving)).after waiting

/-- The batches are closed: they are to be submitted. -/
def closed : Scheduler := { closing with next := ∅ }

theorem rounds_value : waiting.mode = .batched ∧
    waiting.pending.toList = [("fragile", [wreck]), ("lively", [wreck])] ∧
    Scheduler.flush.value waiting = .error (.of (.plain "x")) ∧
    (Scheduler.submit "fragile" [wreck]).value { waiting with pending := ∅ } =
      .error (.of (.plain "x")) ∧
    ((waiting.checker.rulesOver "sensor").forM (Scheduler.take · leaving)).value waiting = .ok ⟨⟩ ∧
    closing.next.toList = [("fragile", [leaving]), ("lively", [leaving])] ∧
    (Scheduler.schedule leaving).value waiting = .error (.of (.plain "x")) ∧
    (closed.pendingOf "fragile").isEmpty = false ∧
    (Scheduler.submit "fragile" (closed.pendingOf "fragile")).value
        { closed with pending := closed.pending.insert "fragile" [leaving] } =
      .error (.of (.plain "x")) := by decide +kernel

theorem takes_closing : (waiting.checker.rulesOver leaving.pattern).forM (Scheduler.take · leaving)
    waiting = .ok ⟨⟩ closing := by
  obtain ⟨-, -, -, -, htakes, -⟩ := rounds_value
  obtain ⟨_, h⟩ := exists_of_value htakes
  rw [closing, after_eq h]
  exact h

end Sample

theorem Scheduler.failed_rounds_forget_sample :
    (∃ e σ', flush Sample.waiting = .error e σ' ∧
      σ'.share "lively" = { Sample.waiting.share "lively" with pending := none } ∧
      (Sample.waiting.StillWaits σ' "lively" ↔ Sample.waiting.pendingOf "lively" = [])) ∧
    ∃ e σ', schedule Sample.leaving Sample.waiting = .error e σ' ∧
      σ'.share "lively" = { Sample.closing.share "lively" with next := none } ∧
      (Sample.closing.StillWaits σ' "lively" ↔ Sample.closing.next.getD "lively" [] = []) := by
  obtain ⟨hmode, hwaiting, hflush, hsubmit, -, hclosing, hschedule, hpending, hnext⟩ := Sample.rounds_value
  obtain ⟨σ₁, h₁⟩ := exists_of_value_error hflush
  obtain ⟨σ₂, h₂⟩ := exists_of_value_error hschedule
  obtain ⟨_, hall⟩ := exists_of_value_error hsubmit
  obtain ⟨_, hround⟩ := exists_of_value_error hnext
  have hlively : ∀ {rule : String} {batch batch' : List Change},
      (rule, batch) = ("fragile", batch') → "lively" ≠ rule := fun h hrule =>
    absurd (hrule.trans (Prod.mk.inj h).1) (by decide)
  refine ⟨⟨_, σ₁, h₁, ?_⟩, _, σ₂, h₂, ?_⟩
  · obtain ⟨before, rule, batch, after, reports, σ, hdue, hbefore, -, hrest⟩ :=
      failed_rounds_forget.1 h₁
    rw [submitAll_eq_round] at hbefore
    obtain ⟨rfl, hfirst⟩ :=
      eq_first_of_round (hwaiting.symm.trans hdue) hbefore rfl rfl hall
    exact hrest "lively" (hlively hfirst) List.not_mem_nil
  · obtain ⟨before, rule, next, after, reports, σ, hdue, hbefore, -, hrest⟩ :=
      failed_rounds_forget.2 Sample.leaving Sample.closing hmode Sample.takes_closing h₂
    rw [submitNext_eq_round] at hbefore
    obtain ⟨rfl, hfirst⟩ := eq_first_of_round (σ := Sample.closed)
      (hclosing.symm.trans hdue) hbefore rfl hpending hround
    exact hrest "lively" (hlively hfirst) List.not_mem_nil

/-- **A round that forgets.** A change waits for two rules, and the cycle of the first one fails. After
that nothing waits for the second one, which a second flush does not report on. By the round that closes
batches it loses the change that was to start its next batch. -/
theorem Scheduler.flush_forgets :
    (∃ e σ', flush Sample.waiting = .error e σ' ∧
      Sample.waiting.pendingOf "lively" = [Sample.wreck] ∧ σ'.pendingOf "lively" = [] ∧
      flush.value σ' = .ok []) ∧
    ∃ e σ', schedule Sample.leaving Sample.waiting = .error e σ' ∧
      Sample.closing.next.getD "lively" [] = [Sample.leaving] ∧ σ'.next.getD "lively" [] = [] := by
  obtain ⟨-, -, hflush, -, -, -, hschedule, -⟩ := Sample.rounds_value
  obtain ⟨σ₁, h₁⟩ := exists_of_value_error hflush
  obtain ⟨σ₂, h₂⟩ := exists_of_value_error hschedule
  refine ⟨⟨_, σ₁, h₁, by decide +kernel, ?_⟩, _, σ₂, h₂, by decide +kernel, ?_⟩
  · rw [← after_eq_of_error h₁]
    decide +kernel
  · rw [← after_eq_of_error h₂]
    decide +kernel

end RuleMonitor
