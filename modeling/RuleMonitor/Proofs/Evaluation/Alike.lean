import RuleMonitor.Proofs.Routines

/-!
# Computations that come to the same

Two computations are alike if both succeed, with results that belong together, or both fail with the
same error; a crash is not like anything. Tasks that are alike one by one are alike as a whole, whether
they are handed out to workers or run in sequence, since the error that counts is the first one.

* `Eval.Alike`, `Eval.Alike.bind`: evaluation that comes to the same.
* `Eval.forEach_settles`: tasks handed out come to what they come to in sequence.
* **`Eval.alike_forEach`**: tasks that are alike one by one.
* `Outcome`, `Outcome.alike`: results that do not depend on the count.
-/

namespace RuleMonitor

/-- Two results are alike: both are values that belong together, or both are the same error. -/
inductive Outcome {α β : Type} (R : α → β → Prop) : Except Failure α → Except Failure β → Prop
  | ok {a : α} {b : β} (h : R a b) : Outcome R (.ok a) (.ok b)
  | error (e : Error) : Outcome R (.error (.error e)) (.error (.error e))

namespace Outcome

variable {α β γ δ : Type} {R : α → β → Prop} {S : γ → δ → Prop} {x : Except Failure α}
  {y : Except Failure β}

theorem bind {f : α → Except Failure γ} {g : β → Except Failure δ} (h : Outcome R x y)
    (hf : ∀ a b, R a b → Outcome S (f a) (g b)) : Outcome S (x >>= f) (y >>= g) := by
  cases h with
  | ok h => exact hf _ _ h
  | error e => exact .error e

theorem imp {R' : α → β → Prop} (h : Outcome R x y) (hR : ∀ a b, R a b → R' a b) :
    Outcome R' x y := by
  cases h with
  | ok h => exact .ok (hR _ _ h)
  | error e => exact .error e

theorem mapM {f : γ → Except Failure α} {g : δ → Except Failure β} {l : List γ} {l' : List δ}
    (h : List.Forall₂ (fun a b => Outcome R (f a) (g b)) l l') :
    Outcome (List.Forall₂ R) (l.mapM f) (l'.mapM g) := by
  induction h with
  | nil => exact .ok .nil
  | cons h _ ih =>
    rw [List.mapM_cons, List.mapM_cons]
    exact h.bind fun a b hab => ih.bind fun as bs hs => .ok (.cons hab hs)

end Outcome

namespace Eval

variable {α β γ δ : Type} {R : α → β → Prop} {S : γ → δ → Prop}

/-- Two computations are alike: both yield results that belong together, or both fail with the same
error. -/
inductive Alike (R : α → β → Prop) (x : Eval α) (y : Eval β) : Prop
  | yields {a : α} {b : β} (left : x.Yields a) (right : y.Yields b) (related : R a b)
  | fails {e : Error} (left : x.Fails (· = .error e)) (right : y.Fails (· = .error e))

theorem alike_pure {a : α} {b : β} (h : R a b) : Alike R (pure a) (pure b) :=
  .yields (yields_pure a) (yields_pure b) h

theorem alike_throw (e : Error) : Alike R (throw (.error e) : Eval α) (throw (.error e) : Eval β) :=
  .fails ⟨_, rfl, fun k => ⟨k, rfl⟩⟩ ⟨_, rfl, fun k => ⟨k, rfl⟩⟩

theorem alike_ite {p : Prop} [Decidable p] {x x' : Eval α} {y y' : Eval β} (h : p → Alike R x y)
    (h' : ¬p → Alike R x' y') : Alike R (if p then x else x') (if p then y else y') := by
  split_ifs with hp
  · exact h hp
  · exact h' hp

theorem Alike.bind {x : Eval α} {y : Eval β} {f : α → Eval γ} {g : β → Eval δ} (h : Alike R x y)
    (hf : ∀ a b, R a b → Alike S (f a) (g b)) : Alike S (x >>= f) (y >>= g) := by
  cases h with
  | yields hx hy hab =>
    cases hf _ _ hab with
    | yields hx' hy' hcd => exact .yields (hx.bind hx') (hy.bind hy') hcd
    | fails hx' hy' => exact .fails (hx.bind_fails hx') (hy.bind_fails hy')
  | fails hx hy => exact .fails (hx.bind f) (hy.bind g)

/-- A choice between two computations, with what follows it in either branch. -/
theorem Alike.ite_bind {p : Prop} [Decidable p] {x x' : Eval α} {y y' : Eval β} {f : α → Eval γ}
    {g : β → Eval δ} (h : Alike R (if p then x else x') (if p then y else y'))
    (hf : ∀ a b, R a b → Alike S (f a) (g b)) :
    Alike S (if p then x >>= f else x' >>= f) (if p then y >>= g else y' >>= g) := by
  rw [← apply_ite (· >>= f), ← apply_ite (· >>= g)]
  exact h.bind hf

theorem Alike.imp {R' : α → β → Prop} {x : Eval α} {y : Eval β} (h : Alike R x y)
    (hR : ∀ a b, R a b → R' a b) : Alike R' x y := by
  cases h with
  | yields hx hy hab => exact .yields hx hy (hR _ _ hab)
  | fails hx hy => exact .fails hx hy

theorem Alike.trans {T : β → γ → Prop} {x : Eval α} {y : Eval β} {z : Eval γ} (h : Alike R x y)
    (h' : Alike T y z) : Alike (fun a c => ∃ b, R a b ∧ T b c) x z := by
  cases h with
  | yields hx hy hab =>
    cases h' with
    | yields hy' hz hbc =>
      obtain ⟨k, h₁⟩ := hy 0
      obtain ⟨k', h₂⟩ := hy' 0
      obtain ⟨rfl, -⟩ := EStateM.Result.ok.inj (h₁.symm.trans h₂)
      exact .yields hx hz ⟨_, hab, hbc⟩
    | fails hy' _ => exact absurd hy hy'.not_yields
  | fails hx hy =>
    cases h' with
    | yields hy' _ _ => exact absurd hy' hy.not_yields
    | fails hy' hz =>
      obtain ⟨-, rfl, h₁⟩ := id hy
      obtain ⟨-, rfl, h₂⟩ := hy'
      obtain ⟨k, h₁⟩ := h₁ 0
      obtain ⟨k', h₂⟩ := h₂ 0
      obtain ⟨h, -⟩ := EStateM.Result.error.inj (h₁.symm.trans h₂)
      obtain rfl := Failure.error.inj h
      exact .fails hx hz

end Eval

theorem Outcome.alike {α β : Type} {R : α → β → Prop} {x : Except Failure α} {y : Except Failure β}
    (h : Outcome R x y) : Eval.Alike R (Routine.ofExcept x) (Routine.ofExcept y) := by
  cases h with
  | ok h => exact .yields (Eval.yields_ofExcept rfl) (Eval.yields_ofExcept rfl) h
  | error e => exact .fails (Eval.fails_ofExcept rfl rfl) (Eval.fails_ofExcept rfl rfl)

namespace Eval

variable {α β : Type} {R : α → β → Prop} {f : α → Eval β} {as : List α}

/-! ## Many tasks -/

theorem firstError_some {rs : List (Except Failure α)} {e : Error}
    (h : ∀ r ∈ rs, ∀ c, r ≠ .error (.crash c)) : firstError rs (some e) = some e := by
  induction rs with
  | nil => rfl
  | cons r rs ih =>
    rw [List.forall_mem_cons] at h
    match r, h.1 with
    | .ok a, _ => exact ih h.2
    | .error (.error e'), _ => exact ih h.2
    | .error (.crash c), hr => exact absurd rfl (hr c)

/-- All tasks are run, and the first error is the one that ends them in sequence. -/
theorem runAll_settles (h : ∀ a ∈ as, Alike Eq (f a) (f a)) :
    ∃ rs, (runAll f as).Yields rs ∧ (∀ r ∈ rs, ∀ c, r ≠ .error (.crash c)) ∧
      ((∃ bs, (inSequence f as).Yields bs ∧ rs = bs.map Except.ok) ∨
        ∃ e, (inSequence f as).Fails (· = .error e) ∧ firstError rs none = some e) := by
  induction as with
  | nil => exact ⟨[], yields_pure [], nofun, .inl ⟨[], yields_pure [], rfl⟩⟩
  | cons a as ih =>
    rw [List.forall_mem_cons] at h
    obtain ⟨rs, hrs, hcrash, hseq⟩ := ih h.2
    cases h.1 with
    | @yields b _ hb =>
      have hattempt : Yields (Routine.attempt (f a)) (.ok b) := fun k => by
        obtain ⟨k', h⟩ := hb k
        exact ⟨k', Routine.attempt_ok h⟩
      refine ⟨.ok b :: rs, hattempt.bind (hrs.bind (yields_pure _)),
        List.forall_mem_cons.mpr ⟨nofun, hcrash⟩, ?_⟩
      rcases hseq with ⟨bs, hbs, rfl⟩ | ⟨e, he, hfirst⟩
      · exact .inl ⟨b :: bs, hb.bind (hbs.bind (yields_pure _)), rfl⟩
      · exact .inr ⟨e, hb.bind_fails (he.bind _), hfirst⟩
    | @fails e ha =>
      obtain ⟨-, rfl, hk⟩ := id ha
      have hattempt : Yields (Routine.attempt (f a)) (.error (.error e)) := fun k => by
        obtain ⟨k', h⟩ := hk k
        exact ⟨k', Routine.attempt_error h⟩
      refine ⟨.error (.error e) :: rs, hattempt.bind (hrs.bind (yields_pure _)),
        List.forall_mem_cons.mpr ⟨fun c h => (nomatch h), hcrash⟩, .inr ⟨e, ha.bind _, ?_⟩⟩
      exact firstError_some hcrash

/-- **Tasks handed out** come to what they come to in sequence. -/
theorem forEach_settles (concurrent : Bool) (h : ∀ a ∈ as, Alike Eq (f a) (f a)) :
    Alike Eq (inSequence f as) (forEach concurrent f as) := by
  obtain ⟨rs, hrs, -, hseq⟩ := runAll_settles h
  have hself : Alike Eq (inSequence f as) (inSequence f as) := by
    rcases hseq with ⟨bs, hbs, -⟩ | ⟨e, he, -⟩
    · exact .yields hbs hbs rfl
    · exact .fails he he
  have hfan : Alike Eq (inSequence f as) (fanOut f as) := by
    unfold fanOut
    split_ifs
    · exact hself
    · rcases hseq with ⟨bs, hbs, rfl⟩ | ⟨e, he, hfirst⟩
      · exact .yields hbs (hrs.bind (yields_ofExcept (joinResults_map_ok bs))) rfl
      · refine .fails he (hrs.bind_fails (fails_ofExcept (e := .error e) ?_ rfl))
        rw [joinResults, hfirst]
  unfold forEach
  split_ifs
  · have hcount : Yields (modify (· + 1) : Eval PUnit) ⟨⟩ := fun k => ⟨k + 1, rfl⟩
    cases hfan with
    | yields hx hy hab => exact .yields hx (hcount.bind hy) hab
    | fails hx hy => exact .fails hx (hcount.bind_fails hy)
  · exact hself

end Eval

namespace Eval

variable {α β γ δ : Type} {R : α → β → Prop} {f : γ → Eval α} {g : δ → Eval β} {as : List γ}
  {bs : List δ}

theorem Alike.left {x : Eval α} {y : Eval β} (h : Alike R x y) : Alike Eq x x := by
  cases h with
  | yields hx _ _ => exact .yields hx hx rfl
  | fails hx _ => exact .fails hx hx

theorem Alike.right {x : Eval α} {y : Eval β} (h : Alike R x y) : Alike Eq y y := by
  cases h with
  | yields _ hy _ => exact .yields hy hy rfl
  | fails _ hy => exact .fails hy hy

theorem Alike.symm {x y : Eval α} (h : Alike Eq x y) : Alike Eq y x := by
  cases h with
  | yields hx hy hab => exact .yields hy hx hab.symm
  | fails hx hy => exact .fails hy hx

/-- What one of two computations yields tells what the other one yields. -/
theorem Alike.exists_yields {x : Eval α} {y : Eval β} {a : α} (h : Alike R x y) (hx : x.Yields a) :
    ∃ b, y.Yields b ∧ R a b := by
  cases h with
  | yields hx' hy hab =>
    obtain ⟨k, h₁⟩ := hx 0
    obtain ⟨k', h₂⟩ := hx' 0
    obtain ⟨rfl, -⟩ := EStateM.Result.ok.inj (h₁.symm.trans h₂)
    exact ⟨_, hy, hab⟩
  | fails hx' _ => exact absurd hx hx'.not_yields

theorem Alike.exists_fails {K : Failure → Prop} {x : Eval α} {y : Eval β} (h : Alike R x y)
    (hx : x.Fails K) : ∃ e, x.Fails (· = .error e) ∧ y.Fails (· = .error e) := by
  cases h with
  | yields hx' _ _ => exact absurd hx' hx.not_yields
  | fails hx' hy => exact ⟨_, hx', hy⟩

theorem alike_inSequence (h : List.Forall₂ (fun a b => Alike R (f a) (g b)) as bs) :
    Alike (List.Forall₂ R) (inSequence f as) (inSequence g bs) := by
  induction h with
  | nil => exact alike_pure .nil
  | cons h _ ih => exact h.bind fun a b hab => ih.bind fun as bs hs => alike_pure (.cons hab hs)

/-- **Tasks that are alike one by one** are alike as a whole, whichever of them are handed out. -/
theorem alike_forEach (c c' : Bool) (h : List.Forall₂ (fun a b => Alike R (f a) (g b)) as bs) :
    Alike (List.Forall₂ R) (forEach c f as) (forEach c' g bs) := by
  have hleft : ∀ a ∈ as, Alike Eq (f a) (f a) := fun a ha => by
    obtain ⟨b, -, hab⟩ := Lists.exists_of_forall₂ h.flip ha
    exact hab.left
  have hright : ∀ b ∈ bs, Alike Eq (g b) (g b) := fun b hb => by
    obtain ⟨a, -, hab⟩ := Lists.exists_of_forall₂ h hb
    exact hab.right
  refine ((forEach_settles c hleft).symm.trans ((alike_inSequence h).trans
    (forEach_settles c' hright))).imp ?_
  rintro as' bs' ⟨_, rfl, _, hab, rfl⟩
  exact hab

end Eval

namespace Setting

variable {α β γ δ : Type} {R : α → β → Prop} {f : γ → Eval α} {g : δ → Eval β} {as : List γ}
  {bs : List δ}

theorem alike_forBranches (s t : Setting) (index : Nat)
    (h : List.Forall₂ (fun a b => Eval.Alike R (f a) (g b)) as bs) :
    Eval.Alike (List.Forall₂ R) (s.forBranches index f as) (t.forBranches index g bs) :=
  Eval.alike_forEach _ _ h

end Setting

end RuleMonitor
