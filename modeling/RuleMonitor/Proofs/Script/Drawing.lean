import RuleMonitor.Proofs.Script.Reading
import RuleMonitor.Workload

/-!
# Random changes that are drawn

Drawing numbers does not touch the roster, so each random change is one that its roster answered: it is
valid, and the roster moves with it.

* `Workload.Rolls`, `Workload.keeps_below`, `Workload.keeps_attributes`: numbers that are drawn.
* `Workload.Draws`, **`Workload.draws_change`**: a change that is drawn.
-/

namespace RuleMonitor

open Routine

namespace Workload

variable {α G : Type} [RandomSource G]

/-! ## Numbers -/

/-- A number is drawn, and only the source moves. -/
def Rolls (x : Routine (Workload G) α) : Prop :=
  ∀ w, ∃ k g, x w = .ok k { w with generator := g }

theorem rolls_below {n : Nat} (hn : 0 < n) : Rolls (below n : Routine (Workload G) (Fin n)) := fun w => by
  unfold below
  rw [get_bind, dif_pos hn]
  -- The draws are not to be looked at: there may be thousands of them.
  generalize RandomSource.below64 w.generator n hn = drawn
  obtain ⟨k, g⟩ := drawn
  exact ⟨k, g, rfl⟩

theorem rolls_roll : Rolls (roll : Routine (Workload G) (Fin 10)) := fun w => by
  unfold roll
  rw [get_bind]
  generalize RandomSource.below32 w.generator 10 (Nat.zero_lt_succ 9) = drawn
  obtain ⟨k, g⟩ := drawn
  exact ⟨k, g, rfl⟩

omit [RandomSource G] in
theorem Rolls.keeps {x : Routine (Workload G) α} (hx : Rolls x) : Keeps Failure.Mild roster x where
  ok {w k w'} h := by
    obtain ⟨k', g, hg⟩ := hx w
    cases hg.symm.trans h
    rfl
  error {w e w'} h := by
    obtain ⟨k, g, hg⟩ := hx w
    exact nomatch hg.symm.trans h

theorem keeps_below (n : Nat) : Keeps Failure.Mild roster (below n : Routine (Workload G) (Fin n)) := by
  by_cases hn : 0 < n
  · exact (rolls_below hn).keeps
  · unfold below
    simp only [dif_neg hn]
    exact keeps_get.bind fun _ => keeps_throw rfl

theorem keeps_roll : Keeps Failure.Mild roster (roll : Routine (Workload G) (Fin 10)) :=
  rolls_roll.keeps

theorem keeps_attributes (values : Nat) (names : List String) :
    ∀ drawn, Keeps Failure.Mild roster
      (attributes values names drawn : Routine (Workload G) Attributes) := by
  induction names with
  | nil => exact fun _ => keeps_pure _
  | cons name names ih => exact fun _ => (keeps_below _).bind fun _ => ih _

/-! ## Changes -/

variable {g : α → List Change} {x : Routine Roster Change}

/-- The roster moves with the changes that are answered. -/
abbrev Draws (g : α → List Change) (x : Routine (Workload G) α) : Prop :=
  Shifts roster (fun a before after => before.LeadsTo (g a) after) x

omit [RandomSource G] in
theorem draws_onRoster {allowed : Roster → String → Prop} (hx : Roster.Operates allowed x) :
    Draws (G := G) (fun c => [c]) (onRoster x) where
  ok h := by
    obtain ⟨r, hr, rfl⟩ := exists_of_onPart h
    exact (hx.ok hr).1.leadsTo
  error {w e w'} h := by
    cases hr : x w.roster with
    | ok c r => exact nomatch (onPart_ok hr).symm.trans h
    | error e' r =>
      obtain ⟨rfl, he⟩ := hx.error hr
      obtain ⟨rfl, rfl⟩ := EStateM.Result.error.inj ((onPart_error hr).symm.trans h)
      exact ⟨rfl, he⟩

theorem draws_addition (pattern : String) (names : List String) :
    Draws (G := G) (fun c => [c]) (addition pattern names) :=
  .after keeps_get fun _ => .after (keeps_attributes _ _ _) fun _ =>
    draws_onRoster (Roster.operates_add _ _)

theorem draws_update (id : Nat) (names : List String) :
    Draws (G := G) (fun c => [c]) (update id names) :=
  .after (keeps_below _) fun _ => .after keeps_get fun _ => .after (keeps_below _) fun _ =>
    draws_onRoster (Roster.operates_update _ _)

/-- **A change that is drawn**, if there is any pattern, is valid. -/
theorem draws_change : Draws (G := G) Option.toList change := by
  have hdeletion : ∀ id, Draws (G := G) (fun c => [c]) (onRoster (Roster.remove id)) := fun id =>
    draws_onRoster (Roster.operates_remove id)
  refine .after keeps_get fun w => .ite (shifts_pure Roster.leadsTo_nil) ?_
  refine .after (keeps_below _) fun k => ?_
  refine .after keeps_roll fun roll => .ite ((draws_addition _ _).map id) ?_
  exact .after (keeps_below _) fun k => .ite ((hdeletion _).map id) ((draws_update _ _).map id)

end Workload

end RuleMonitor
