import Mathlib.Data.List.Forall2
import RuleMonitor.Evaluation.Setting
import RuleMonitor.Proofs.Collections

/-!
# Computations that succeed

A computation that succeeds goes on with its value, from the state that it led to. Evaluation has
the number of fan-outs as its state, and no value depends on it: evaluation **yields** a value if it
succeeds with that value from every count, and **fails** if it ends with one failure from every count.
Tasks that all yield something yield the list of it, whether they are handed out to workers or run in
sequence; if one of them fails, so do they all.

* `Failure.CrashClosed`: kinds of failures with the errors that crashes leave.
* `Routine.bind_ok`: a computation that succeeds, followed by another one.
* `Routine.Keeps`: a computation that leaves a view of the state alone; `Routine.Upholds`: one after
  which holds what held before; `Routine.Falls`: one that fails from all states that look alike.
* `Eval.Yields`; `Eval.yields_forEach`, `Setting.yields_forBranches`: many tasks.
* `Eval.Fails`; `Eval.fails_forEach`, `Setting.fails_forBranches`: many tasks, one of which fails.
* `Eval.Decided`: whether evaluation yields or fails is known; `Eval.Decided.bind`,
  `Setting.decided_forBranches`.
-/

namespace RuleMonitor

/-- With a crash, the error that it leaves in a task is of the kind, too. -/
abbrev Failure.CrashClosed (K : Failure → Prop) : Prop :=
  ∀ c, K (.crash c) → K (.error c.toError)

namespace Routine

variable {σ τ α β : Type}

theorem bind_ok {x : Routine σ α} {f : α → Routine σ β} {s s' : σ} {a : α} (h : x s = .ok a s') :
    (x >>= f) s = f a s' := by
  change EStateM.bind x f s = _
  simp only [EStateM.bind, h]

theorem bind_error {x : Routine σ α} {f : α → Routine σ β} {s s' : σ} {e : Failure}
    (h : x s = .error e s') : (x >>= f) s = .error e s' := by
  change EStateM.bind x f s = _
  simp only [EStateM.bind, h]

theorem bind_eq_bind {x y : Routine σ α} {f : α → Routine σ β} {s t : σ} (h : x s = y t) :
    (x >>= f) s = (y >>= f) t := by
  change EStateM.bind x f s = EStateM.bind y f t
  rw [EStateM.bind, EStateM.bind, h]

theorem bind_eq_ok {x : Routine σ α} {f : α → Routine σ β} {s s' : σ} {b : β} :
    (x >>= f) s = .ok b s' ↔ ∃ a s₁, x s = .ok a s₁ ∧ f a s₁ = .ok b s' := by
  cases h : x s with
  | ok a s₁ =>
    rw [bind_ok h]
    exact ⟨fun hb => ⟨a, s₁, rfl, hb⟩, fun ⟨a', s₂, e, hb⟩ => by cases e; exact hb⟩
  | error e s₁ =>
    rw [bind_error h]
    exact ⟨fun hb => (nomatch hb), fun ⟨a', s₂, e, hb⟩ => (nomatch e)⟩

theorem bind_eq_error {x : Routine σ α} {f : α → Routine σ β} {s s' : σ} {e : Failure} :
    (x >>= f) s = .error e s' ↔
      x s = .error e s' ∨ ∃ a s₁, x s = .ok a s₁ ∧ f a s₁ = .error e s' := by
  cases h : x s with
  | ok a s₁ =>
    rw [bind_ok h]
    exact ⟨fun hb => .inr ⟨a, s₁, rfl, hb⟩, fun
      | .inr ⟨a', s₂, e, hb⟩ => by cases e; exact hb⟩
  | error e s₁ =>
    rw [bind_error h]
    refine ⟨fun he => by cases he; exact .inl rfl, ?_⟩
    rintro (he | ⟨_, _, he, -⟩)
    · cases he
      rfl
    · cases he

theorem attempt_error {x : Routine σ α} {s s' : σ} {e : Failure} (h : x s = .error e s') :
    attempt x s = .ok (.error e) s' := by
  simp only [attempt, h]

theorem get_bind {f : σ → Routine σ β} {s : σ} : (get >>= f) s = f s s := rfl

theorem set_bind {s s' : σ} {f : PUnit → Routine σ β} : (set s' >>= f) s = f ⟨⟩ s' := rfl

theorem modify_bind {g : σ → σ} {f : PUnit → Routine σ β} {s : σ} :
    (modify g >>= f) s = f ⟨⟩ (g s) := rfl

theorem attempt_ok {x : Routine σ α} {s s' : σ} {a : α} (h : x s = .ok a s') :
    attempt x s = .ok (.ok a) s' := by
  simp only [attempt, h]

theorem onPart_ok {get : σ → τ} {set : τ → σ → σ} {x : Routine τ α} {s : σ} {t : τ} {a : α}
    (h : x (get s) = .ok a t) : onPart get set x s = .ok a (set t s) := by
  simp only [onPart, h]

theorem onPart_error {get : σ → τ} {set : τ → σ → σ} {x : Routine τ α} {s : σ} {t : τ} {e : Failure}
    (h : x (get s) = .error e t) : onPart get set x s = .error e (set t s) := by
  simp only [onPart, h]

theorem exists_of_onPart {get : σ → τ} {set : τ → σ → σ} {x : Routine τ α} {s s' : σ} {a : α}
    (h : onPart get set x s = .ok a s') : ∃ t, x (get s) = .ok a t ∧ set t s = s' := by
  cases hx : x (get s) with
  | ok b t =>
    rw [onPart_ok hx] at h
    cases h
    exact ⟨t, rfl, rfl⟩
  | error e t =>
    rw [onPart_error hx] at h
    cases h

theorem exists_of_attempt {x : Routine σ α} {s s' : σ} {o : Except Failure α}
    (h : attempt x s = .ok o s') :
    (∃ a, o = .ok a ∧ x s = .ok a s') ∨ ∃ e, o = .error e ∧ x s = .error e s' := by
  cases hx : x s with
  | ok a t =>
    rw [attempt_ok hx] at h
    cases h
    exact .inl ⟨a, rfl, rfl⟩
  | error e t =>
    rw [attempt_error hx] at h
    cases h
    exact .inr ⟨e, rfl, rfl⟩

theorem ofExcept_eq_ok {x : Except Failure α} {a : α} {s s' : σ}
    (h : (ofExcept x : Routine σ α) s = .ok a s') : x = .ok a ∧ s' = s := by
  cases x with
  | ok b =>
    cases h
    exact ⟨rfl, rfl⟩
  | error e => cases h

theorem ofExcept_error {x : Except Failure α} {e : Failure} (h : x = .error e) (s : σ) :
    (ofExcept x : Routine σ α) s = .error e s := by
  rw [h]
  rfl

theorem ofExcept_ok {x : Except Failure α} {a : α} (h : x = .ok a) (s : σ) :
    (ofExcept x : Routine σ α) s = .ok a s := by
  rw [h]
  rfl

/-- The state that is left, whether `x` succeeds or not. -/
def after (x : Routine σ α) (s : σ) : σ :=
  match x s with
  | .ok _ s' | .error _ s' => s'

theorem after_eq {x : Routine σ α} {s s' : σ} {a : α} (h : x s = .ok a s') : x.after s = s' := by
  rw [after, h]

theorem after_eq_of_error {x : Routine σ α} {s s' : σ} {e : Failure} (h : x s = .error e s') :
    x.after s = s' := by
  rw [after, h]

theorem after_bind_ok {x : Routine σ α} {f : α → Routine σ β} {s s' : σ} {a : α} (h : x s = .ok a s') :
    (x >>= f).after s = (f a).after s' := by
  rw [after, after, bind_ok h]

theorem after_bind_error {x : Routine σ α} {f : α → Routine σ β} {s s' : σ} {e : Failure}
    (h : x s = .error e s') : (x >>= f).after s = s' :=
  after_eq_of_error (bind_error h)

theorem value_ok {x : Routine σ α} {s s' : σ} {a : α} (h : x s = .ok a s') :
    x.value s = .ok a := by
  simp only [value, h]

theorem exists_of_value {x : Routine σ α} {s : σ} {a : α} (h : x.value s = .ok a) :
    ∃ s', x s = .ok a s' := by
  cases hx : x s with
  | ok b s' =>
    rw [value_ok hx] at h
    exact ⟨s', Except.ok.inj h ▸ rfl⟩
  | error e s' =>
    simp only [value, hx] at h
    cases h

theorem value_error {x : Routine σ α} {s s' : σ} {e : Failure} (h : x s = .error e s') :
    x.value s = .error e := by
  simp only [value, h]

theorem exists_of_value_error {x : Routine σ α} {s : σ} {e : Failure} (h : x.value s = .error e) :
    ∃ s', x s = .error e s' := by
  cases hx : x s with
  | ok b s' =>
    rw [value_ok hx] at h
    cases h
  | error e' s' =>
    rw [value_error hx] at h
    exact ⟨s', Except.error.inj h ▸ rfl⟩

/-! ## Computations that keep a view -/

section Keeps

variable {μ ν : Type} {v : σ → ν} {F G : Failure → Prop}

/-- Whether a computation succeeds or not, a view of the state stays the same, and all failures are of
a kind. -/
structure Keeps (F : Failure → Prop) (v : σ → ν) (x : Routine σ α) : Prop where
  ok : ∀ {s a s'}, x s = .ok a s' → v s' = v s
  error : ∀ {s e s'}, x s = .error e s' → v s' = v s ∧ F e

theorem keeps_pure (a : α) : Keeps F v (pure a : Routine σ α) where
  ok h := by
    cases h
    rfl
  error h := nomatch h

theorem keeps_get : Keeps F v (get : Routine σ σ) where
  ok h := by
    cases h
    rfl
  error h := nomatch h

theorem keeps_modify {g : σ → σ} (hg : ∀ s, v (g s) = v s) : Keeps F v (modify g : Routine σ PUnit) where
  ok h := by
    cases h
    exact hg _
  error h := nomatch h

theorem keeps_set {s₁ : σ} (h : ∀ s, v s₁ = v s) : Keeps F v (set s₁ : Routine σ PUnit) where
  ok h' := by
    cases h'
    exact h _
  error h' := nomatch h'

theorem keeps_throw {e : Failure} (he : F e) : Keeps F v (throw e : Routine σ α) where
  ok h := nomatch h
  error h := by
    cases h
    exact ⟨rfl, he⟩

theorem Keeps.bind {x : Routine σ α} {f : α → Routine σ β} (hx : Keeps F v x) (hf : ∀ a, Keeps F v (f a)) :
    Keeps F v (x >>= f) where
  ok h := by
    obtain ⟨a, s₁, h₁, h₂⟩ := bind_eq_ok.mp h
    exact ((hf a).ok h₂).trans (hx.ok h₁)
  error h := by
    rcases bind_eq_error.mp h with h | ⟨a, s₁, h₁, h₂⟩
    · exact hx.error h
    · exact ⟨((hf a).error h₂).1.trans (hx.ok h₁), ((hf a).error h₂).2⟩

theorem Keeps.ite {p : Prop} [Decidable p] {x y : Routine σ α} (hx : Keeps F v x) (hy : Keeps F v y) :
    Keeps F v (if p then x else y) := by
  split_ifs
  · exact hx
  · exact hy

theorem Keeps.check {p : Prop} [Decidable p] {x : Routine σ PUnit} {f : PUnit → Routine σ α}
    (hx : Keeps F v x) (hf : Keeps F v (f ⟨⟩)) : Keeps F v (if p then x >>= f else f ⟨⟩) :=
  (hx.bind fun _ => hf).ite hf

theorem keeps_forM {f : β → Routine σ PUnit} (hf : ∀ b, Keeps F v (f b)) (l : List β) :
    Keeps F v (l.forM f) := by
  induction l with
  | nil => exact keeps_pure _
  | cons b l ih => exact (hf b).bind fun _ => ih

theorem keeps_onPart {get : σ → τ} {set : τ → σ → σ} {w : τ → μ}
    (hv : ∀ t s, w t = w (get s) → v (set t s) = v s) {x : Routine τ α} (hx : Keeps F w x) :
    Keeps F v (onPart get set x) where
  ok h := by
    obtain ⟨t, ht, rfl⟩ := exists_of_onPart h
    exact hv t _ (hx.ok ht)
  error {s e s'} h := by
    cases h₁ : x (get s) with
    | ok a t => exact nomatch (onPart_ok h₁).symm.trans h
    | error e' t =>
      obtain ⟨rfl, rfl⟩ := EStateM.Result.error.inj ((onPart_error h₁).symm.trans h)
      exact ⟨hv t s (hx.error h₁).1, (hx.error h₁).2⟩

theorem keeps_any (x : Routine σ α) : Keeps (fun _ => True) (fun _ => ()) x where
  ok _ := rfl
  error _ := ⟨rfl, trivial⟩

theorem Keeps.attempt {x : Routine σ α} (hx : Keeps F v x) : Keeps G v (Routine.attempt x) where
  ok h := by
    rcases exists_of_attempt h with ⟨a, -, h⟩ | ⟨e, -, h⟩
    · exact hx.ok h
    · exact (hx.error h).1
  error h := by
    unfold Routine.attempt at h
    split at h <;> cases h

end Keeps

/-! ## Computations that uphold something -/

section Upholds

variable {I : σ → Prop} {x y : Routine σ α} {f : α → Routine σ β}

/-- Whether a computation succeeds or not, what holds before it holds after it. -/
def Upholds (I : σ → Prop) (x : Routine σ α) : Prop :=
  ∀ s, I s → I (x.after s)

theorem upholds_pure (a : α) : Upholds I (pure a : Routine σ α) :=
  fun _ h => h

theorem upholds_throw (e : Failure) : Upholds I (throw e : Routine σ α) :=
  fun _ h => h

theorem upholds_modify {g : σ → σ} (hg : ∀ s, I s → I (g s)) : Upholds I (modify g : Routine σ PUnit) :=
  hg

theorem upholds_ofExcept (e : Except Failure α) : Upholds I (ofExcept e : Routine σ α) := by
  cases e with
  | ok a => exact upholds_pure a
  | error e => exact upholds_throw e

theorem Upholds.bind (hx : Upholds I x) (hf : ∀ a, Upholds I (f a)) : Upholds I (x >>= f) := by
  intro s hs
  have hmid := hx s hs
  cases hrun : x s with
  | ok a s₁ =>
    rw [after_eq hrun] at hmid
    rw [after_bind_ok hrun]
    exact hf a s₁ hmid
  | error e s₁ =>
    rw [after_eq_of_error hrun] at hmid
    rwa [after_bind_error hrun]

theorem Upholds.get {f : σ → Routine σ β} (hf : ∀ s, I s → Upholds I (f s)) : Upholds I (get >>= f) :=
  fun s hs => hf s hs s hs

theorem Upholds.ite {p : Prop} [Decidable p] (hx : Upholds I x) (hy : Upholds I y) :
    Upholds I (if p then x else y) := by
  split_ifs
  · exact hx
  · exact hy

theorem Upholds.check {p : Prop} [Decidable p] {x : Routine σ PUnit} {f : PUnit → Routine σ α}
    (hx : Upholds I x) (hf : Upholds I (f ⟨⟩)) : Upholds I (if p then x >>= f else f ⟨⟩) :=
  (hx.bind fun _ => hf).ite hf

theorem upholds_forM {f : β → Routine σ PUnit} (hf : ∀ b, Upholds I (f b)) (l : List β) :
    Upholds I (l.forM f) := by
  induction l with
  | nil => exact upholds_pure _
  | cons b l ih => exact (hf b).bind fun _ => ih

theorem Upholds.attempt (hx : Upholds I x) : Upholds I (Routine.attempt x) := by
  intro s hs
  have hmid := hx s hs
  cases hrun : x s with
  | ok a s₁ =>
    rw [after_eq hrun] at hmid
    rwa [after_eq (attempt_ok hrun)]
  | error e s₁ =>
    rw [after_eq_of_error hrun] at hmid
    rwa [after_eq (attempt_error hrun)]

theorem upholds_onPart {get : σ → τ} {set : τ → σ → σ} {x : Routine τ α}
    (h : ∀ s, I s → I (set (x.after (get s)) s)) : Upholds I (onPart get set x) := by
  intro s hs
  have hset := h s hs
  cases hrun : x (get s) with
  | ok a t =>
    rw [after_eq hrun] at hset
    rwa [after_eq (onPart_ok hrun)]
  | error e t =>
    rw [after_eq_of_error hrun] at hset
    rwa [after_eq_of_error (onPart_error hrun)]

end Upholds

/-! ## Computations that fall -/

section Falls

variable {ν : Type} {v : σ → ν} {K : Failure → Prop} {x : Routine σ α} {s : σ}

/-- From all states that look like one, a computation fails with a failure of some kind. -/
def Falls (v : σ → ν) (K : Failure → Prop) (x : Routine σ α) (s : σ) : Prop :=
  ∀ t, v t = v s → ∃ e t', x t = .error e t' ∧ K e

theorem Falls.bind (h : Falls v K x s) (f : α → Routine σ β) : Falls v K (x >>= f) s := fun t ht => by
  obtain ⟨e, t', hx, he⟩ := h t ht
  exact ⟨e, t', bind_error hx, he⟩

theorem falls_get {f : σ → Routine σ β} (hf : ∀ t, v t = v s → Falls v K (f t) s) :
    Falls v K (get >>= f) s :=
  fun t ht => hf t ht t ht

theorem falls_throw {e : Failure} (he : K e) (s : σ) : Falls v K (throw e : Routine σ α) s :=
  fun t _ => ⟨e, t, rfl, he⟩

theorem not_falls (hK : ∀ e, ¬K e) : ¬Falls v K x s := fun h => by
  obtain ⟨e, -, -, he⟩ := h s rfl
  exact hK e he

end Falls

/-! ## Computations that attain something -/

section Attains

variable {pre mid post : σ → Prop} {A : α → Prop} {B : β → Prop} {x : Routine σ α}
  {f : α → Routine σ β}

/-- From each state of a kind, a computation succeeds with an answer of a kind, and leads to a state of
another kind. -/
def Attains (pre : σ → Prop) (x : Routine σ α) (A : α → Prop) (post : σ → Prop) : Prop :=
  ∀ s, pre s → ∃ a s', x s = .ok a s' ∧ A a ∧ post s'

theorem attains_pure {a : α} (h : A a) : Attains pre (pure a) A pre :=
  fun s hs => ⟨a, s, rfl, h, hs⟩

theorem Attains.bind (hx : Attains pre x A mid) (hf : ∀ a, A a → Attains mid (f a) B post) :
    Attains pre (x >>= f) B post := fun s hs => by
  obtain ⟨a, s₁, h₁, ha, hs₁⟩ := hx s hs
  rw [bind_ok h₁]
  exact hf a ha s₁ hs₁

theorem Attains.next {a : α} (hx : Attains pre x (· = a) mid) (hf : Attains mid (f a) B post) :
    Attains pre (x >>= f) B post :=
  hx.bind fun _ ha => ha ▸ hf

theorem Attains.nextSnd {x : Routine σ (γ × α)} {f : γ × α → Routine σ β} {a : α}
    (hx : Attains pre x (·.2 = a) mid) (hf : ∀ k, Attains mid (f (k, a)) B post) :
    Attains pre (x >>= f) B post :=
  hx.bind fun found ha => by
    obtain ⟨k, _⟩ := found
    subst ha
    exact hf k

theorem Attains.imp {pre' post' : σ → Prop} {A' : α → Prop} (hx : Attains pre x A post)
    (hpre : ∀ s, pre' s → pre s) (hA : ∀ a, A a → A' a) (hpost : ∀ s, post s → post' s) :
    Attains pre' x A' post' := fun s hs => by
  obtain ⟨a, s', h, ha, hs'⟩ := hx s (hpre s hs)
  exact ⟨a, s', h, hA a ha, hpost s' hs'⟩

theorem Attains.attempt (hx : Attains pre x A post) :
    Attains pre (Routine.attempt x) (fun o => ∃ a, o = .ok a ∧ A a) post := fun s hs => by
  obtain ⟨a, s', h, ha, hs'⟩ := hx s hs
  exact ⟨.ok a, s', attempt_ok h, ⟨a, rfl, ha⟩, hs'⟩

theorem Attains.get {f : σ → Routine σ β} (h : ∀ s, pre s → Attains pre (f s) B post) :
    Attains pre (get >>= f) B post :=
  fun s hs => h s hs s hs

theorem Attains.check {p : Prop} [Decidable p] {y : Routine σ PUnit} {f : PUnit → Routine σ β}
    (hp : ¬p) (hf : Attains pre (f ⟨⟩) B post) : Attains pre (if p then y >>= f else f ⟨⟩) B post := by
  rwa [if_neg hp]

theorem Attains.onPart {get : σ → τ} {set : τ → σ → σ} {x : Routine τ α} {preT postT : τ → Prop}
    (hx : Attains preT x A postT) (hpre : ∀ s, pre s → preT (get s))
    (hpost : ∀ s t, pre s → postT t → post (set t s)) : Attains pre (onPart get set x) A post :=
  fun s hs => by
    obtain ⟨a, t, h, ha, ht⟩ := hx (get s) (hpre s hs)
    exact ⟨a, set t s, onPart_ok h, ha, hpost s t hs ht⟩

end Attains

end Routine

/-! ## Evaluation -/

namespace Eval

variable {α β γ : Type}

/-- Evaluation succeeds with a value, however many fan-outs were dispatched before. -/
def Yields (x : Eval α) (a : α) : Prop :=
  ∀ k, ∃ k', x k = .ok a k'

theorem Yields.congr {x : Eval α} {a b : α} (hx : x.Yields a) (h : a = b) : x.Yields b :=
  h ▸ hx

theorem yields_pure (a : α) : Yields (pure a) a :=
  fun k => ⟨k, rfl⟩

theorem Yields.bind {x : Eval α} {f : α → Eval β} {a : α} {b : β} (hx : x.Yields a)
    (hf : (f a).Yields b) : (x >>= f).Yields b := fun k => by
  obtain ⟨k₁, h₁⟩ := hx k
  obtain ⟨k₂, h₂⟩ := hf k₁
  exact ⟨k₂, by rw [Routine.bind_ok h₁, h₂]⟩

/-- A choice between two computations, with what follows it in either branch. -/
theorem Yields.ite_bind {p : Prop} [Decidable p] {x y : Eval α} {f : α → Eval β} {a : α} {b : β}
    (hx : Yields (if p then x else y) a) (hf : (f a).Yields b) :
    Yields (if p then x >>= f else y >>= f) b := by
  rw [← apply_ite (· >>= f)]
  exact hx.bind hf

theorem Yields.map {x : Eval α} {a : α} (hx : x.Yields a) (f : α → β) : (f <$> x).Yields (f a) :=
  hx.bind (f := fun a => pure (f a)) (yields_pure (f a))

theorem yields_ofExcept {x : Except Failure α} {a : α} (h : x = .ok a) :
    Yields (Routine.ofExcept x) a :=
  fun k => ⟨k, Routine.ofExcept_ok h k⟩

theorem Yields.value {x : Eval α} {a : α} (hx : x.Yields a) (k : Nat) : x.value k = .ok a := by
  obtain ⟨k', h⟩ := hx k
  exact Routine.value_ok h

/-! ## Many tasks -/

theorem yields_inSequence {f : α → Eval β} {as : List α} {bs : List β}
    (h : List.Forall₂ (fun a b => (f a).Yields b) as bs) : (inSequence f as).Yields bs := by
  induction h with
  | nil => exact yields_pure []
  | cons hb _ ih => exact hb.bind (ih.bind (yields_pure _))

theorem yields_runAll {f : α → Eval β} {as : List α} {bs : List β}
    (h : List.Forall₂ (fun a b => (f a).Yields b) as bs) :
    (runAll f as).Yields (bs.map Except.ok) := by
  induction h with
  | nil => exact yields_pure []
  | cons hb _ ih =>
    refine Yields.bind (a := Except.ok _) (fun k => ?_) (ih.bind (yields_pure _))
    obtain ⟨k', h⟩ := hb k
    exact ⟨k', Routine.attempt_ok h⟩

theorem firstError_map_ok (bs : List β) : firstError (bs.map Except.ok) none = none := by
  induction bs with
  | nil => rfl
  | cons b bs ih => rwa [List.map_cons, firstError]

theorem values_map_ok (bs : List β) : values (bs.map Except.ok) = bs := by
  induction bs with
  | nil => rfl
  | cons b bs ih => rw [List.map_cons, values, ih]

theorem joinResults_map_ok (bs : List β) : joinResults (bs.map Except.ok) = .ok bs := by
  rw [joinResults, firstError_map_ok, values_map_ok]

theorem yields_fanOut {f : α → Eval β} {as : List α} {bs : List β}
    (h : List.Forall₂ (fun a b => (f a).Yields b) as bs) : (fanOut f as).Yields bs := by
  unfold fanOut
  split_ifs
  · exact yields_inSequence h
  · exact (yields_runAll h).bind (yields_ofExcept (joinResults_map_ok bs))

/-- **Many tasks** yield what each of them yields, handed out or not. -/
theorem yields_forEach (concurrent : Bool) {f : α → Eval β} {as : List α} {bs : List β}
    (h : List.Forall₂ (fun a b => (f a).Yields b) as bs) : (forEach concurrent f as).Yields bs := by
  unfold forEach
  split_ifs
  · exact Yields.bind (a := ⟨⟩) (fun k => ⟨k + 1, rfl⟩) (yields_fanOut h)
  · exact yields_inSequence h

/-! ## Failing -/

/-- Evaluation fails with one failure of a kind, however many fan-outs were dispatched before. -/
def Fails (K : Failure → Prop) (x : Eval α) : Prop :=
  ∃ e, K e ∧ ∀ k, ∃ k', x k = .error e k'

variable {K : Failure → Prop}

theorem Fails.bind {x : Eval α} (hx : x.Fails K) (f : α → Eval β) : (x >>= f).Fails K := by
  obtain ⟨e, he, hx⟩ := hx
  refine ⟨e, he, fun k => ?_⟩
  obtain ⟨k', h⟩ := hx k
  exact ⟨k', Routine.bind_error h⟩

theorem Yields.bind_fails {x : Eval α} {f : α → Eval β} {a : α} (hx : x.Yields a)
    (hf : (f a).Fails K) : (x >>= f).Fails K := by
  obtain ⟨e, he, hf⟩ := hf
  refine ⟨e, he, fun k => ?_⟩
  obtain ⟨k₁, h₁⟩ := hx k
  obtain ⟨k₂, h₂⟩ := hf k₁
  exact ⟨k₂, by rw [Routine.bind_ok h₁, h₂]⟩

theorem fails_ofExcept {x : Except Failure α} {e : Failure} (h : x = .error e) (he : K e) :
    Fails K (Routine.ofExcept x) :=
  ⟨e, he, fun k => ⟨k, Routine.ofExcept_error h k⟩⟩

theorem Fails.not_yields {x : Eval α} {a : α} (hx : x.Fails K) : ¬x.Yields a := by
  intro hy
  obtain ⟨e, -, hx⟩ := hx
  obtain ⟨k₁, h₁⟩ := hx 0
  obtain ⟨k₂, h₂⟩ := hy 0
  exact nomatch h₁.symm.trans h₂

section Tasks

variable {f : α → Eval β} {as : List α}
  (h : ∀ a ∈ as, (∃ b, (f a).Yields b) ∨ (f a).Fails K)

include h

theorem fails_inSequence (hf : ∃ a ∈ as, (f a).Fails K) : (inSequence f as).Fails K := by
  induction as with
  | nil => exact absurd hf (by simp)
  | cons a as ih =>
    rw [List.forall_mem_cons] at h
    rcases h.1 with ⟨b, hb⟩ | ha
    · obtain ⟨a', ha', hf⟩ := hf
      rcases List.mem_cons.mp ha' with rfl | ha'
      · exact absurd hb hf.not_yields
      · exact hb.bind_fails (Fails.bind (ih h.2 ⟨a', ha', hf⟩) _)
    · exact ha.bind _

theorem exists_yields_runAll : ∃ rs, (runAll f as).Yields rs ∧
    (∀ e, .error e ∈ rs → K e) ∧ ((∃ a ∈ as, (f a).Fails K) → ∃ e, .error e ∈ rs) := by
  induction as with
  | nil => exact ⟨[], yields_pure [], nofun, by simp⟩
  | cons a as ih =>
    rw [List.forall_mem_cons] at h
    obtain ⟨rs, hrs, hK, hsome⟩ := ih h.2
    rcases h.1 with ⟨b, hb⟩ | ⟨e, he, ha⟩
    · have hattempt : Yields (Routine.attempt (f a)) (.ok b) := fun k => by
        obtain ⟨k', h⟩ := hb k
        exact ⟨k', Routine.attempt_ok h⟩
      refine ⟨.ok b :: rs, hattempt.bind (hrs.bind (yields_pure _)), fun e he => ?_, ?_⟩
      · exact hK e (List.mem_of_ne_of_mem (by simp) he)
      · rintro ⟨a', ha', hf⟩
        rcases List.mem_cons.mp ha' with rfl | ha'
        · exact absurd hb hf.not_yields
        · obtain ⟨e, he⟩ := hsome ⟨a', ha', hf⟩
          exact ⟨e, List.mem_cons_of_mem _ he⟩
    · have hattempt : Yields (Routine.attempt (f a)) (.error e) := fun k => by
        obtain ⟨k', h⟩ := ha k
        exact ⟨k', Routine.attempt_error h⟩
      refine ⟨.error e :: rs, hattempt.bind (hrs.bind (yields_pure _)), fun e' he' => ?_,
        fun _ => ⟨e, List.mem_cons_self⟩⟩
      rcases List.mem_cons.mp he' with h | h
      · cases h
        exact he
      · exact hK e' h

end Tasks

/-- The error that counts is of a kind if all failures are. -/
theorem firstError_of_kind (hK : Failure.CrashClosed K) :
    ∀ {rs : List (Except Failure α)} {error : Option Error},
    (∀ e, .error e ∈ rs → K e) → (∀ e ∈ error, K (.error e)) →
    (error.isSome = true ∨ ∃ e, .error e ∈ rs) → ∃ e, firstError rs error = some e ∧ K (.error e) := by
  intro rs
  induction rs with
  | nil =>
    intro error _ herror hsome
    obtain ⟨e, rfl⟩ := Option.isSome_iff_exists.mp (hsome.resolve_right (by simp))
    exact ⟨e, rfl, herror e rfl⟩
  | cons r rs ih =>
    intro error hrs herror hsome
    have hrs : (∀ e, r = .error e → K e) ∧ ∀ e, .error e ∈ rs → K e :=
      ⟨fun e he => hrs e (he ▸ List.mem_cons_self), fun e he => hrs e (List.mem_cons_of_mem _ he)⟩
    cases r with
    | ok a =>
      refine ih hrs.2 herror (hsome.imp_right fun ⟨e, he⟩ => ⟨e, ?_⟩)
      exact List.mem_of_ne_of_mem (by simp) he
    | error e =>
      refine ih hrs.2 (fun e' he' => ?_) (.inl rfl)
      obtain rfl := Option.some.inj he'
      have he := hrs.1 e rfl
      cases e with
      | error e =>
        cases error with
        | none => exact he
        | some e' => exact herror e' rfl
      | crash c =>
        cases error with
        | none => exact hK c he
        | some e' =>
          unfold worseError
          dsimp only
          split_ifs
          · exact herror e' rfl
          · exact hK c he

/-- **Many tasks, one of which fails**, fail as a whole, handed out or not. -/
theorem fails_forEach (hK : Failure.CrashClosed K) (concurrent : Bool)
    {f : α → Eval β} {as : List α} (h : ∀ a ∈ as, (∃ b, (f a).Yields b) ∨ (f a).Fails K)
    (hf : ∃ a ∈ as, (f a).Fails K) : (forEach concurrent f as).Fails K := by
  have hfan : (fanOut f as).Fails K := by
    unfold fanOut
    split_ifs
    · exact fails_inSequence h hf
    · obtain ⟨rs, hrs, hkind, hsome⟩ := exists_yields_runAll h
      obtain ⟨e, he, hKe⟩ := firstError_of_kind hK hkind
        (nofun : ∀ e ∈ (none : Option Error), K (.error e)) (.inr (hsome hf))
      refine hrs.bind_fails (fails_ofExcept (e := .error e) ?_ hKe)
      rw [joinResults, he]
  unfold forEach
  split_ifs
  · exact Yields.bind_fails (a := ⟨⟩) (fun k => ⟨k + 1, rfl⟩) hfan
  · exact fails_inSequence h hf

/-! ## Evaluation that is decided -/

/-- Evaluation yields something with a property if something holds, and fails with a failure of a kind
if it does not. -/
structure Decided (K : Failure → Prop) (x : Eval α) (E : Prop) (R : α → Prop) : Prop where
  yields : E → ∃ a, x.Yields a ∧ R a
  fails : ¬E → x.Fails K

section Decided

variable {x : Eval α} {f : α → Eval β} {E E' : Prop} {R : α → Prop} {R' : β → Prop}

theorem Decided.congr (hx : x.Decided K E R) (h : E' ↔ E) : x.Decided K E' R where
  yields he := hx.yields (h.mp he)
  fails hn := hx.fails fun he => hn (h.mpr he)

theorem Decided.imp {R' : α → Prop} (hx : x.Decided K E R) (h : ∀ a, R a → R' a) :
    x.Decided K E R' where
  yields he := (hx.yields he).imp fun a ha => ⟨ha.1, h a ha.2⟩
  fails := hx.fails

theorem decided_of_yields {a : α} (hE : E) (hx : x.Yields a) (hR : R a) : x.Decided K E R where
  yields _ := ⟨a, hx, hR⟩
  fails hn := absurd hE hn

theorem Decided.or_fails (hx : x.Decided K E R) : (∃ a, x.Yields a) ∨ x.Fails K :=
  (em E).imp (fun he => (hx.yields he).imp fun _ h => h.1) hx.fails

theorem decided_ofExcept {e : Except Failure α} (he : ∀ failure, e = .error failure → K failure) :
    Decided K (Routine.ofExcept e) (∃ a, e = .ok a) (e = .ok ·) where
  yields := fun ⟨a, ha⟩ => ⟨a, yields_ofExcept ha, ha⟩
  fails hn := by
    cases e with
    | ok a => exact absurd ⟨a, rfl⟩ hn
    | error failure => exact fails_ofExcept rfl (he failure rfl)

theorem Decided.bind (hx : x.Decided K E R) (hf : ∀ a, R a → (f a).Decided K E' R') :
    (x >>= f).Decided K (E ∧ E') R' where
  yields h := by
    obtain ⟨a, ha, hR⟩ := hx.yields h.1
    obtain ⟨b, hb, hR'⟩ := (hf a hR).yields h.2
    exact ⟨b, ha.bind hb, hR'⟩
  fails hn := by
    by_cases he : E
    · obtain ⟨a, ha, hR⟩ := hx.yields he
      exact ha.bind_fails ((hf a hR).fails fun he' => hn ⟨he, he'⟩)
    · exact (hx.fails he).bind f

theorem Decided.andThen (hx : x.Decided K E R) (hf : ∀ a, R a → ∃ b, (f a).Yields b ∧ R' b) :
    (x >>= f).Decided K E R' :=
  (hx.bind fun a ha => ⟨fun _ => hf a ha, fun hn => absurd trivial hn⟩).congr
    (and_iff_left trivial).symm

end Decided

end Eval

namespace Setting

variable {α β : Type}

theorem yields_forBranches (s : Setting) (index : Nat) {f : α → Eval β} {as : List α}
    {bs : List β} (h : List.Forall₂ (fun a b => (f a).Yields b) as bs) :
    (s.forBranches index f as).Yields bs :=
  Eval.yields_forEach _ h

/-- Tasks for branches that each yield something with a property yield a list of such results. -/
theorem exists_yields_forBranches (s : Setting) (index : Nat) {f : α → Eval β} {as : List α}
    {P : α → β → Prop} (h : ∀ a ∈ as, ∃ b, (f a).Yields b ∧ P a b) :
    ∃ bs, (s.forBranches index f as).Yields bs ∧ List.Forall₂ P as bs := by
  obtain ⟨bs, hbs⟩ := Lists.exists_forall₂ h
  exact ⟨bs, s.yields_forBranches index (hbs.imp fun _ _ h => h.1), hbs.imp fun _ _ h => h.2⟩

theorem fails_forBranches {K : Failure → Prop} (hK : Failure.CrashClosed K)
    (s : Setting) (index : Nat) {f : α → Eval β} {as : List α}
    (h : ∀ a ∈ as, (∃ b, (f a).Yields b) ∨ (f a).Fails K) (hf : ∃ a ∈ as, (f a).Fails K) :
    (s.forBranches index f as).Fails K :=
  Eval.fails_forEach hK _ h hf

/-- Tasks for branches yield something if the tasks of all branches do. -/
theorem decided_forBranches {K : Failure → Prop} (hK : Failure.CrashClosed K)
    (s : Setting) (index : Nat) {f : α → Eval β} {as : List α} {E : α → Prop} {R : α → β → Prop}
    (h : ∀ a ∈ as, (f a).Decided K (E a) (R a)) :
    (s.forBranches index f as).Decided K (∀ a ∈ as, E a) (List.Forall₂ R as) where
  yields he := s.exists_yields_forBranches index fun a ha => (h a ha).yields (he a ha)
  fails hn := by
    push Not at hn
    obtain ⟨a, ha, hn⟩ := hn
    exact s.fails_forBranches hK index (fun a ha => (h a ha).or_fails) ⟨a, ha, (h a ha).fails hn⟩

theorem decided_forBranches_map {γ : Type} {K : Failure → Prop}
    (hK : Failure.CrashClosed K) (s : Setting) (index : Nat) {f : α → Eval β}
    {as : List α} {cs : List γ} {g : α → γ} (hg : as.map g = cs) {E : γ → Prop} {R : γ → β → Prop}
    (h : ∀ a ∈ as, (f a).Decided K (E (g a)) (R (g a))) :
    (s.forBranches index f as).Decided K (∀ c ∈ cs, E c) (List.Forall₂ R cs) := by
  subst hg
  exact ((s.decided_forBranches hK index h).imp fun _ => List.forall₂_map_left_iff.mpr).congr
    List.forall_mem_map

end Setting

end RuleMonitor
