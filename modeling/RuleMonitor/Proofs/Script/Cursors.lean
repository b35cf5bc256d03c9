import RuleMonitor.Proofs.Routines
import RuleMonitor.Script.Cursor

/-!
# Steps of a cursor

A step of a cursor may move it anywhere, but the only thing that it fails with is a report on the text.
In a larger state, such a step leaves alone what is not the cursor.

* `Routine.Shifts`: a computation that only alters a view when it succeeds, and then along a relation.
* `Cursor.isFatal_errorAt`: reports on the text.
* `Cursor.moves_tag`, `Cursor.moves_name`, …: the steps.
-/

namespace RuleMonitor

/-- The failure is a fatal error. -/
def Failure.isFatal : Failure → Bool
  | .error e => e.isFatal
  | .crash _ => false

/-- The failure is not a fatal error. -/
abbrev Failure.Mild (e : Failure) : Prop :=
  e.isFatal = false

namespace Routine

variable {σ ν α β : Type} {v : σ → ν}

/-! ## Computations that shift a view -/

/-- A success shifts a view of the state along a relation, a failure leaves it alone, and no failure is a
fatal error. -/
structure Shifts (v : σ → ν) (R : α → ν → ν → Prop) (x : Routine σ α) : Prop where
  ok : ∀ {s a s'}, x s = .ok a s' → R a (v s) (v s')
  error : ∀ {s e s'}, x s = .error e s' → v s' = v s ∧ e.isFatal = false

variable {R : α → ν → ν → Prop}

theorem shifts_pure {a : α} (hR : ∀ n, R a n n) : Shifts v R (pure a : Routine σ α) where
  ok h := by
    cases h
    exact hR _
  error h := nomatch h

theorem Shifts.after {y : Routine σ β} {f : β → Routine σ α} (hy : Keeps Failure.Mild v y)
    (hf : ∀ b, Shifts v R (f b)) : Shifts v R (y >>= f) where
  ok h := by
    obtain ⟨b, s₁, h₁, h₂⟩ := bind_eq_ok.mp h
    exact hy.ok h₁ ▸ (hf b).ok h₂
  error h := by
    rcases bind_eq_error.mp h with h | ⟨b, s₁, h₁, h₂⟩
    · exact hy.error h
    · exact ⟨((hf b).error h₂).1.trans (hy.ok h₁), ((hf b).error h₂).2⟩

theorem Shifts.ite {p : Prop} [Decidable p] {x y : Routine σ α} (hx : Shifts v R x) (hy : Shifts v R y) :
    Shifts v R (if p then x else y) := by
  split_ifs
  · exact hx
  · exact hy

theorem Shifts.check {p : Prop} [Decidable p] {y : Routine σ PUnit} {f : PUnit → Routine σ α}
    (hy : Keeps Failure.Mild v y) (hf : Shifts v R (f ⟨⟩)) : Shifts v R (if p then y >>= f else f ⟨⟩) :=
  (Shifts.after hy fun _ => hf).ite hf

theorem Shifts.imp {R' : α → ν → ν → Prop} {x : Routine σ α} (hx : Shifts v R x)
    (hR : ∀ {a n n'}, R a n n' → R' a n n') : Shifts v R' x where
  ok h := hR (hx.ok h)
  error h := hx.error h

theorem Shifts.map {R' : β → ν → ν → Prop} {x : Routine σ α} {f : α → β} (hx : Shifts v R x)
    (hR : ∀ {a n n'}, R a n n' → R' (f a) n n') : Shifts v R' (do return f (← x)) where
  ok h := by
    obtain ⟨a, s₁, h₁, h₂⟩ := bind_eq_ok.mp h
    cases h₂
    exact hR (hx.ok h₁)
  error h := by
    rcases bind_eq_error.mp h with h | ⟨a, s₁, -, h₂⟩
    · exact hx.error h
    · cases h₂

end Routine

open Routine

/-! ## Cursors -/

namespace Cursor

theorem report_parse {message : String} {position : Nat} {lines : List (List Char)} {e : Error} :
    ∀ {line start : Nat}, report message position line start lines = .error e →
      ∃ err, e = .of (.parse err) := by
  induction lines with
  | nil =>
    intro line start h
    exact ⟨_, (Failure.error.inj h).symm⟩
  | cons text rest ih =>
    intro line start h
    unfold report at h
    dsimp only at h
    split_ifs at h
    · exact ⟨_, (Failure.error.inj h).symm⟩
    · exact ih h

theorem isFatal_errorAt (c : Cursor) (position : Nat) (message : String) :
    (c.errorAt position message).isFatal = false := by
  cases h : c.errorAt position message with
  | crash => rfl
  | error e =>
    obtain ⟨err, rfl⟩ := report_parse h
    rfl

section Keeps

variable {ν : Type} {v : Cursor → ν}

theorem keeps_failAt {α : Type} (position : Nat) (message : String) :
    Keeps Failure.Mild v (failAt position message : Routine Cursor α) :=
  keeps_get.bind fun c => keeps_throw (c.isFatal_errorAt position message)

theorem keeps_failHere {α : Type} (message : String) :
    Keeps Failure.Mild v (failHere message : Routine Cursor α) :=
  keeps_get.bind fun c => keeps_failAt c.position message

end Keeps

/-- A cursor may move anywhere. -/
abbrev Moves {α : Type} (x : Routine Cursor α) : Prop :=
  Keeps Failure.Mild (fun _ => ()) x

theorem moves_set (c : Cursor) : Moves (set c : Routine Cursor PUnit) :=
  keeps_set fun _ => rfl

theorem moves_skip : Moves skip :=
  keeps_modify fun _ => rfl

theorem moves_tag? (text : String) : Moves (tag? text) := by
  refine keeps_get.bind fun c => ?_
  split
  · exact (moves_set _).bind fun _ => keeps_pure _
  · exact keeps_pure _

theorem moves_tag (text : String) : Moves (tag text) :=
  (moves_tag? text).bind fun _ => (keeps_failHere _).ite (keeps_pure _)

theorem moves_word? (text : String) : Moves (word? text) := by
  refine keeps_get.bind fun c => ?_
  split
  · exact (keeps_pure _).ite ((moves_set _).bind fun _ => keeps_pure _)
  · exact keeps_pure _

theorem moves_nameChars : Moves nameChars :=
  keeps_get.bind fun _ => (moves_set _).bind fun _ => keeps_pure _

theorem moves_name? : Moves name? :=
  keeps_get.bind fun _ => (keeps_pure _).ite <| moves_nameChars.bind fun _ =>
    (keeps_failAt _ _).check (keeps_pure _)

theorem moves_name : Moves name := by
  refine moves_name?.bind fun found => ?_
  cases found with
  | some found => exact keeps_pure _
  | none => exact keeps_failHere _

theorem moves_value? : Moves value? := by
  refine keeps_get.bind fun c => (moves_tag? _).bind fun quoted => Keeps.ite ?_ ?_
  · refine keeps_get.bind fun c => ?_
    split
    · exact keeps_failAt _ _
    · exact (moves_set _).bind fun _ => keeps_pure _
  · exact moves_nameChars.bind fun _ => keeps_pure _

theorem moves_value : Moves value := by
  refine moves_value?.bind fun found => ?_
  cases found with
  | some found => exact keeps_pure _
  | none => exact keeps_failHere _

end Cursor

end RuleMonitor
