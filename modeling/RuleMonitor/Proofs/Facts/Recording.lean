import RuleMonitor.Proofs.Facts.Exchanges
import RuleMonitor.Proofs.Facts.Deltas

/-!
# What a batch records

The delta that a batch leaves for a pattern is the exact difference between the pools before and after
it, however often and in whatever order its changes add, delete and update the same context. A context
that is live before and after is listed as updated if some change touched it, even one that gives it
the value it had.

* `FactStore.Made`: the stores that the operations of a store lead to, those that fail included;
  `FactStore.Made.keyed`: contexts are found under their identities in them.
* `Delta.Marks`: what a delta lists of the contexts that were touched; `FactStore.Marks.applyBatch`: it
  goes on to list that during a batch.
* `Delta.IsDifference`, **`FactStore.isDifference_of_applyBatch`**: each delta is the exact difference.
-/

namespace RuleMonitor

open Std (ExtTreeMap)

namespace FactStore

/-! ## The stores that operations lead to -/

/-- The store is what operations made of an empty one. An operation that fails leaves a store too. -/
inductive Made : FactStore → Prop
  | new : Made {}
  | apply {s : FactStore} (c : Change) : Made s → Made ((FactStore.apply c).after s)
  | applyBatch {s : FactStore} (batch : List Change) :
      Made s → Made ((FactStore.applyBatch batch).after s)
  | swap {s : FactStore} (p : String) (old : Nat) (new : Context) :
      Made s → Made ((FactStore.swap p old new).after s)
  | clearDeltas {s : FactStore} : Made s → Made s.clearDeltas

variable {s : FactStore}

/-- A change that fails leaves the pools alone, or writes what a valid one would. -/
theorem pools_after_apply (c : Change) (s : FactStore) :
    ((FactStore.apply c).after s).pools = s.pools ∨
      ((FactStore.apply c).after s).pools = s.pools.step c := by
  unfold Routine.after FactStore.apply
  rw [Routine.get_bind]
  unfold Pools.step
  simp only
  cases c.kind with
  | addition =>
    refine .inr ?_
    cases (s.pool c.pattern).contains c.id <;> rfl
  | deletion | update =>
    cases (s.pool c.pattern).contains c.id
    · exact .inl rfl
    · exact .inr rfl

theorem keyed_after_apply (h : s.pools.Keyed) (c : Change) :
    ((FactStore.apply c).after s).pools.Keyed := by
  rcases pools_after_apply c s with e | e
  · rwa [e]
  · rw [e]
    exact h.step c

theorem pools_after_applyRecorded (c : Change) (s : FactStore) :
    ((applyRecorded c).after s).pools = ((FactStore.apply c).after s).pools := by
  unfold Routine.after applyRecorded
  rw [Routine.get_bind]
  cases h : FactStore.apply c s with
  | ok u s₁ =>
    rw [Routine.bind_ok h]
    rfl
  | error e s₁ => rw [Routine.bind_error h]

theorem keyed_after_applyBatch {batch : List Change} (h : s.pools.Keyed) :
    ((FactStore.applyBatch batch).after s).pools.Keyed := by
  induction batch generalizing s with
  | nil => exact h
  | cons c rest ih =>
    have hc := keyed_after_apply h c
    rw [← pools_after_applyRecorded] at hc
    cases hr : applyRecorded c s with
    | ok u s₁ =>
      rw [Routine.after_eq hr] at hc
      have hrest : (FactStore.applyBatch (c :: rest)).after s = (FactStore.applyBatch rest).after s₁ := by
        unfold Routine.after
        rw [FactStore.applyBatch, Routine.bind_ok hr]
      rw [hrest]
      exact ih hc
    | error e s₁ =>
      rw [Routine.after_eq_of_error hr] at hc
      have hfail : (FactStore.applyBatch (c :: rest)).after s = s₁ := by
        rw [FactStore.applyBatch, Routine.after_eq_of_error (Routine.bind_error hr)]
      rwa [hfail]

theorem keyed_after_swap (h : s.pools.Keyed) (p : String) (old : Nat) (new : Context) :
    ((FactStore.swap p old new).after s).pools.Keyed := by
  have hk := h.exchange p old new
  unfold Routine.after FactStore.swap
  rw [Routine.get_bind]
  simp only
  cases (s.pool p).contains old with
  | false => exact h
  | true => cases ((s.pool p).erase old).contains new.id <;> exact hk

theorem Made.keyed (h : s.Made) : s.pools.Keyed := by
  induction h with
  | new => exact Pools.keyed_empty
  | apply c _ ih => exact keyed_after_apply ih c
  | applyBatch batch _ ih => exact keyed_after_applyBatch ih
  | swap p old new _ ih => exact keyed_after_swap ih p old new
  | clearDeltas _ ih => exact ih

end FactStore

namespace Delta

variable {d : Delta} {P Q : Pool}

/-! ## The contexts touched -/

theorem getElem?_record {c : Change} {old : Context} (ho : old.id = c.id) {id : Nat} (h : c.id ≠ id) :
    (d.record c old).added[id]? = d.added[id]? ∧ (d.record c old).updated[id]? = d.updated[id]? := by
  have hid : c.context.id ≠ id := h
  have hold : old.id ≠ id := ho ▸ h
  unfold record
  cases c.kind with
  | addition =>
    simp only
    unfold Delta.addition
    split <;> simp [Map.getElem?_insert, hid]
  | deletion =>
    simp only
    unfold Delta.deletion
    simp only
    split_ifs
    · simp [Map.getElem?_erase, hold]
    · split <;> simp [Map.getElem?_erase, hold]
  | update =>
    simp only
    unfold Delta.update
    simp only
    split_ifs
    · simp [Map.getElem?_insert, hid]
    · split <;> simp [Map.getElem?_insert, hid]

/-- The context of an addition or an update is listed with its new value. -/
theorem isSome_record {c : Change} (old : Context) (h : c.kind ≠ .deletion) :
    (d.record c old).added[c.id]?.isSome = true ∨ (d.record c old).updated[c.id]?.isSome = true := by
  unfold record Change.id
  cases hk : c.kind with
  | addition =>
    simp only
    unfold Delta.addition
    split
    · exact .inr (by simp)
    · exact .inl (by simp)
  | deletion => exact absurd hk h
  | update =>
    simp only
    unfold Delta.update
    simp only
    split_ifs
    · exact .inl (by simp)
    · split <;> exact .inr (by simp)

/-- What a delta lists as updated was touched, and what was touched and is live is listed. -/
structure Marks (d : Delta) (T : Nat → Prop) (Q : Pool) : Prop where
  touched : ∀ id : Nat, d.updated[id]?.isSome = true → T id
  listed : ∀ id : Nat, T id → Q[id]?.isSome = true →
    d.added[id]?.isSome = true ∨ d.updated[id]?.isSome = true

variable {T : Nat → Prop}

theorem Marks.record (h : d.Marks T P) {c : Change} {old : Context} (ho : old.id = c.id)
    (hQ : ∀ id : Nat, c.id ≠ id → Q[id]? = P[id]?) (hdel : c.kind = .deletion → Q[c.id]? = none) :
    (d.record c old).Marks (fun id => T id ∨ c.id = id) Q where
  touched id hu := by
    by_cases hid : c.id = id
    · exact .inr hid
    · rw [(getElem?_record ho hid).2] at hu
      exact .inl (h.touched id hu)
  listed id ht hl := by
    by_cases hid : c.id = id
    · subst hid
      refine isSome_record old fun hk => ?_
      rw [hdel hk] at hl
      cases hl
    · rw [(getElem?_record ho hid).1, (getElem?_record ho hid).2]
      rw [hQ id hid] at hl
      exact h.listed id (ht.resolve_right hid) hl

/-! ## The exact difference -/

section Fate

variable {x y v w : Option Context} {z : Option (Context × Context)}

theorem Fate.added_iff (h : Fate x y z v w) (c : Context) : x = some c ↔ v = none ∧ w = some c := by
  cases h with
  | same v => cases v <;> simp
  | added _ | deleted _ | updated _ _ => simp

theorem Fate.deleted_iff (h : Fate x y z v w) (c : Context) : y = some c ↔ v = some c ∧ w = none := by
  cases h with
  | same v => cases v <;> simp
  | added _ | deleted _ | updated _ _ => simp

/-- Of the contexts that are live before and after, those touched are listed as updated. -/
theorem Fate.updated_iff {touched : Prop} (h : Fate x y z v w) (hz : z.isSome = true → touched)
    (hl : touched → w.isSome = true → x.isSome = true ∨ z.isSome = true) (a b : Context) :
    z = some (a, b) ↔ v = some a ∧ w = some b ∧ touched := by
  cases h with
  | same v =>
    refine ⟨nofun, fun ⟨_, hb, ht⟩ => ?_⟩
    rcases hl ht (by rw [hb, Option.isSome_some]) with hx | hx <;> cases hx
  | added _ | deleted _ => simp
  | updated a' b' =>
    have ht : touched := hz rfl
    simp [ht]

theorem Fate.disjoint (h : Fate x y z v w) :
    (x.isSome = true → y = none ∧ z = none) ∧ (y.isSome = true → z = none) := by
  cases h <;> simp

theorem Fate.eq_of_unlisted (h : Fate none none none v w) : w = v := by
  cases h
  rfl

end Fate

/-- The delta is the exact difference of the pools before and after changes that touched some
contexts. -/
structure IsDifference (d : Delta) (P Q : Pool) (T : Nat → Prop) : Prop where
  added : ∀ (id : Nat) (c : Context), d.added[id]? = some c ↔ P[id]? = none ∧ Q[id]? = some c
  deleted : ∀ (id : Nat) (c : Context), d.deleted[id]? = some c ↔ P[id]? = some c ∧ Q[id]? = none
  updated : ∀ (id : Nat) (a b : Context),
    d.updated[id]? = some (a, b) ↔ P[id]? = some a ∧ Q[id]? = some b ∧ T id
  disjoint : ∀ id : Nat, (d.added[id]?.isSome = true → d.deleted[id]? = none ∧ d.updated[id]? = none) ∧
    (d.deleted[id]?.isSome = true → d.updated[id]? = none)
  unlisted : ∀ id : Nat, d.added[id]? = none → d.deleted[id]? = none → d.updated[id]? = none →
    Q[id]? = P[id]?

/-- A delta that separates the pools and marks what was touched is the exact difference. -/
theorem Separates.isDifference (h : d.Separates P Q) (hm : d.Marks T Q) : d.IsDifference P Q T where
  added id := (h id).added_iff
  deleted id := (h id).deleted_iff
  updated id := (h id).updated_iff (hm.touched id) (hm.listed id)
  disjoint id := (h id).disjoint
  unlisted id ha hd hu := by
    have hf := h id
    rw [ha, hd, hu] at hf
    exact hf.eq_of_unlisted

end Delta

/-! ## Batches -/

/-- Some change of a batch touches a context of a pattern. -/
def Change.Touches (batch : List Change) (p : String) (id : Nat) : Prop :=
  ∃ c ∈ batch, c.pattern = p ∧ c.id = id

theorem Change.touches_append_singleton (batch : List Change) (c : Change) (p : String) :
    Touches (batch ++ [c]) p = fun id => Touches batch p id ∨ c.pattern = p ∧ c.id = id := by
  funext id
  simp [Touches, or_and_right, exists_or]

namespace FactStore

variable {s s' : FactStore}

theorem delta_eq_of_hasDeltas (h : s.hasDeltas = false) (p : String) : s.delta p = {} := by
  unfold delta
  rw [ExtTreeMap.getD_eq_getD_getElem?]
  cases hp : s.deltas[p]? with
  | none => rfl
  | some d =>
    unfold hasDeltas at h
    rw [List.any_eq_false] at h
    have hd := h d (Map.mem_values.mpr ⟨p, hp⟩)
    simp only [Delta.isEmpty, Bool.not_eq_true', Bool.not_eq_false, Bool.and_eq_true,
      ExtTreeMap.isEmpty_iff] at hd
    obtain ⟨added, deleted, updated⟩ := d
    obtain ⟨⟨rfl, rfl⟩, rfl⟩ := hd
    rfl

theorem separatedFrom_of_hasDeltas (h : s.hasDeltas = false) : s.SeparatedFrom s.pools := by
  intro p
  rw [delta_eq_of_hasDeltas h]
  exact Delta.separates_refl _

/-- The deltas list what a batch touched. -/
def Marks (s : FactStore) (batch : List Change) : Prop :=
  ∀ p, (s.delta p).Marks (Change.Touches batch p) (s.pools.pool p)

theorem marks_of_hasDeltas (h : s.hasDeltas = false) : s.Marks [] := by
  intro p
  rw [delta_eq_of_hasDeltas h]
  refine ⟨fun id hu => ?_, ?_⟩
  · simp at hu
  · rintro id ⟨c, hc, -⟩
    cases hc

theorem Marks.step {batch : List Change} (h : s.Marks batch) (hk : s.pools.Keyed) (c : Change) :
    (s.recorded c).Marks (batch ++ [c]) := by
  intro p
  have hlive : ∀ id : Nat, ((s.recorded c).pools.pool p)[id]? =
      if c.pattern = p ∧ c.id = id then c.outcome else (s.pools.pool p)[id]? :=
    fun id => s.pools.live?_step c p id
  rw [delta_recorded, Change.touches_append_singleton]
  by_cases hp : c.pattern = p
  · subst hp
    have hold : ((s.get? c.pattern c.id).getD c.context).id = c.id := by
      cases ho : s.get? c.pattern c.id with
      | none => rfl
      | some old => exact hk _ _ _ ho
    rw [if_pos rfl]
    simp only [true_and]
    refine (h c.pattern).record hold (fun id hid => ?_) fun hdel => ?_
    · rw [hlive, if_neg fun e => hid e.2]
    · rw [hlive, if_pos ⟨rfl, rfl⟩, Change.outcome, if_pos hdel]
  · rw [if_neg hp]
    have hpool : (s.recorded c).pools.pool p = s.pools.pool p :=
      ExtTreeMap.ext_getElem? fun id => by rw [hlive, if_neg fun e => hp e.1]
    simpa [hp, hpool] using h p

/-- **A batch goes on marking** what its changes touch. -/
theorem Marks.applyBatch {done batch : List Change} {u : Unit} (h : s.Marks done) (hk : s.pools.Keyed)
    (hs : FactStore.applyBatch batch s = .ok u s') : s'.Marks (done ++ batch) := by
  induction batch generalizing s done with
  | nil =>
    cases hs
    rwa [List.append_nil]
  | cons c rest ih =>
    obtain ⟨Q, hQ⟩ := after?_of_applyBatch hs
    rw [Pools.after?_cons_eq_some] at hQ
    unfold FactStore.applyBatch at hs
    rw [Routine.bind_ok (applyRecorded_ok hQ.1)] at hs
    have hrest := ih (h.step hk c) (hk.step c) hs
    rwa [List.append_assoc] at hrest

/-- The changes of a valid batch, applied one by one to the pools alone. -/
theorem forM_apply {batch : List Change} {Q : Pools} (h : s.pools.after? batch = some Q) :
    batch.forM FactStore.apply s = .ok () { s with pools := Q } := by
  induction batch generalizing s with
  | nil =>
    cases h
    rfl
  | cons c rest ih =>
    rw [Pools.after?_cons_eq_some] at h
    change (FactStore.apply c >>= fun _ => rest.forM FactStore.apply) s = _
    rw [Routine.bind_ok (apply_ok h.1)]
    exact ih (s := { s with pools := s.pools.step c }) h.2

/-- **Deltas are exact.** If a batch is applied to a store without deltas, the pools are those that its
changes lead to one by one, and the delta of each pattern is the exact difference that the batch made
to the pool of the pattern: additions with their final values, deletions with their values before the
batch, and as updated what is live before and after and was touched by a change of the batch. -/
theorem isDifference_of_applyBatch {batch : List Change} (hs : s.Made) (hd : s.hasDeltas = false)
    (h : applyBatch batch s = .ok () s') :
    batch.forM FactStore.apply s = .ok () { s with pools := s'.pools } ∧
      s.pools.after? batch = some s'.pools ∧
      ∀ p, (s'.delta p).IsDifference (s.pool p) (s'.pool p) (Change.Touches batch p) := by
  obtain ⟨Q, hQ⟩ := after?_of_applyBatch h
  obtain ⟨s₁, h₁, rfl, hsep⟩ := applyBatch_ok (separatedFrom_of_hasDeltas hd) hs.keyed hQ
  obtain rfl : s' = s₁ := by
    rw [h] at h₁
    cases h₁
    rfl
  have hmarks := (marks_of_hasDeltas hd).applyBatch hs.keyed h
  exact ⟨forM_apply hQ, hQ, fun p => (hsep p).isDifference (hmarks p)⟩

end FactStore

/-! ## A sample -/

namespace Sample

/-- A change of a tank. -/
def tankChange (kind : ChangeKind) (id : Nat) (level : String) : Change where
  kind := kind
  pattern := "tank"
  context := ⟨id, ExtTreeMap.ofList [("level", level)]⟩

/-- A store with one tank. -/
def oneTank : FactStore :=
  (FactStore.apply (tankChange .addition 0 "low")).after {}

/-- The tank is filled, removed and put back, and another one appears for a while. -/
def tankBatch : List Change :=
  [tankChange .update 0 "high", tankChange .addition 1 "low", tankChange .deletion 0 "high",
    tankChange .deletion 1 "low", tankChange .addition 0 "full"]

end Sample

theorem FactStore.isDifference_of_applyBatch_tanks :
    ∃ s', applyBatch Sample.tankBatch Sample.oneTank = .ok () s' ∧
      (s'.delta "tank").updated[0]? = some ((Sample.tankChange .addition 0 "low").context,
        (Sample.tankChange .addition 0 "full").context) ∧
      (s'.delta "tank").added[1]? = none := by
  have hmade : Sample.oneTank.Made := .apply _ .new
  obtain ⟨Q, hQ⟩ : ∃ Q, Sample.oneTank.pools.after? Sample.tankBatch = some Q :=
    Option.isSome_iff_exists.mp (by decide +kernel)
  obtain ⟨s', hs', -⟩ := applyBatch_ok (separatedFrom_of_hasDeltas (by decide +kernel)) hmade.keyed hQ
  obtain ⟨-, hafter, hd⟩ := isDifference_of_applyBatch hmade (by decide +kernel) hs'
  have hlive : ∀ id : Nat, (s'.pool "tank")[id]? =
      (Sample.oneTank.pools.after? Sample.tankBatch).bind fun P => P.live? "tank" id :=
    fun id => by rw [hafter]; rfl
  refine ⟨s', hs', ((hd "tank").updated _ _ _).mpr ⟨by decide +kernel, ?_, ?_⟩, ?_⟩
  · rw [hlive]
    decide +kernel
  · exact ⟨Sample.tankChange .update 0 "high", List.mem_cons_self, rfl, rfl⟩
  · refine Option.eq_none_iff_forall_ne_some.mpr fun c hc => ?_
    have hnone : (s'.pool "tank")[1]? = none := by
      rw [hlive]
      decide +kernel
    rw [((hd "tank").added 1 c).mp hc |>.2] at hnone
    cases hnone

end RuleMonitor
