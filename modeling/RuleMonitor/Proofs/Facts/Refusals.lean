import RuleMonitor.Proofs.Facts.Deltas
import RuleMonitor.Proofs.Facts.Exchanges

/-!
# What the store refuses

A change that is not valid is refused, and so is an exchange, unless the old context is live and the
identity of the new one is free. The deltas stay as they were, and nothing happens to the pools if a
deletion or an update is refused, or an exchange of a context that is not live. But an addition that is
refused has already taken the place of the live context, and an exchange that finds the new identity
taken has removed the old context by then, and put the new one over the live one.

* `FactStore.apply_refused`, `FactStore.swap_absent`, `FactStore.swap_taken`: what is left behind.
* `FactStore.Unchanged`: the same contexts with the same values, and the same deltas.
* **`FactStore.refusals_write`**: what is refused, and when it leaves the store unchanged.
* `FactStore.refusals_overwrite`: an addition and an exchange that do not.
-/

namespace RuleMonitor

open Std (ExtTreeMap)

/-- The error for a change that is not valid. -/
def Change.refusal (c : Change) : Failure :=
  match c.kind with
  | .addition => .inconsistent s!"adding context `{c.context.name}` to `{c.pattern}` twice"
  | .deletion => .inconsistent s!"deleting context `{c.context.name}` absent from `{c.pattern}`"
  | .update => .inconsistent s!"updating context `{c.context.name}` absent from `{c.pattern}`"

namespace FactStore

variable {s s' : FactStore} {c : Change} {e : Failure} {p : String} {old : Nat} {new : Context}

/-- The store after a change is refused. Additions are written before they are. -/
def afterRefusal (s : FactStore) (c : Change) : FactStore :=
  if c.kind = .addition then { s with pools := s.pools.step c } else s

/-- **A change that is not valid** is refused. -/
theorem apply_refused (h : c.isValid s.pools = false) :
    apply c s = .error c.refusal (s.afterRefusal c) := by
  have hc : (s.pool c.pattern).contains c.id = (s.pools.pool c.pattern).contains c.id := rfl
  unfold Change.isValid at h
  unfold apply Change.refusal afterRefusal Pools.step
  rw [Routine.get_bind]
  simp only [hc] at h ⊢
  cases hk : c.kind with
  | addition =>
    have hlive : (s.pools.pool c.pattern).contains c.id = true := by simpa [hk] using h
    simp only [hlive]
    rfl
  | deletion | update =>
    have hlive : (s.pools.pool c.pattern).contains c.id = false := by simpa [hk] using h
    simp only [hlive]
    rfl

theorem isValid_of_apply_error (h : apply c s = .error e s') : c.isValid s.pools = false := by
  by_contra hv
  rw [apply_ok (Bool.not_eq_false _ ▸ hv)] at h
  cases h

theorem swap_absent (h : s.contains p old = false) :
    swap p old new s =
      .error (.inconsistent s!"swapping context #{old} absent from `{p}`") s := by
  unfold contains at h
  unfold swap
  rw [Routine.get_bind]
  simp only [h]
  rfl

/-- The new identity belongs to a live context that is not the old one. -/
theorem swap_taken (hold : s.contains p old = true) (hne : new.id ≠ old)
    (hnew : s.contains p new.id = true) :
    swap p old new s =
      .error (.inconsistent s!"swapping in context #{new.id} already live in `{p}`")
        { s with pools := s.pools.exchange p old new } := by
  unfold contains at hold hnew
  have htaken : ((s.pool p).erase old).contains new.id = true := by
    rw [ExtTreeMap.contains_eq_isSome_getElem?] at hnew ⊢
    rwa [Map.getElem?_erase, if_neg fun h => hne h.symm]
  unfold swap
  rw [Routine.get_bind]
  simp only [hold, htaken]
  rfl

/-- An exchange is refused for either of two reasons. -/
theorem swap_error (h : swap p old new s = .error e s') :
    (s.contains p old = false ∧ s' = s) ∨
      (s.contains p old = true ∧ new.id ≠ old ∧ s' = { s with pools := s.pools.exchange p old new }) := by
  cases hold : s.contains p old with
  | false =>
    rw [swap_absent hold] at h
    cases h
    exact .inl ⟨rfl, rfl⟩
  | true =>
    by_cases htaken : new.id ≠ old ∧ s.contains p new.id = true
    · rw [swap_taken hold htaken.1 htaken.2] at h
      cases h
      exact .inr ⟨rfl, htaken.1, rfl⟩
    · -- Without the old context the new identity is free, so nothing is refused.
      have hfree : ((s.pool p).erase old).contains new.id = false := by
        rw [ExtTreeMap.contains_eq_isSome_getElem?, Map.getElem?_erase]
        split_ifs with hid
        · rfl
        · have hnew : s.contains p new.id = false :=
            Bool.not_eq_true _ ▸ fun hnew => htaken ⟨fun h => hid h.symm, hnew⟩
          unfold contains at hnew
          rwa [ExtTreeMap.contains_eq_isSome_getElem?] at hnew
      unfold contains at hold
      unfold swap at h
      rw [Routine.get_bind] at h
      simp only [hold, hfree] at h
      cases h

/-! ## What is left unchanged -/

/-- Every pool holds the same contexts with the same values, and the deltas are the same. -/
def Unchanged (s s' : FactStore) : Prop :=
  (∀ p, s'.pool p = s.pool p) ∧ s'.deltas = s.deltas

theorem unchanged_iff (hd : s'.deltas = s.deltas) :
    s.Unchanged s' ↔ ∀ p id, s'.get? p id = s.get? p id :=
  ⟨fun h p id => congrArg (·[id]?) (h.1 p), fun h => ⟨fun p => Pools.pool_ext (h p), hd⟩⟩

theorem deltas_afterRefusal (s : FactStore) (c : Change) : (s.afterRefusal c).deltas = s.deltas := by
  unfold afterRefusal
  split_ifs <;> rfl

theorem get?_afterRefusal (s : FactStore) (c : Change) (p : String) (id : Nat) :
    (s.afterRefusal c).get? p id =
      if c.kind = .addition ∧ c.pattern = p ∧ c.id = id then some c.context else s.get? p id := by
  unfold afterRefusal
  by_cases hk : c.kind = .addition
  · rw [if_pos hk]
    have hout : c.outcome = some c.context := if_neg (hk ▸ nofun)
    change (s.pools.step c).live? p id = _
    rw [Pools.live?_step, hout]
    simp only [hk, true_and]
    rfl
  · rw [if_neg hk, if_neg fun h => hk h.1]

/-- **What is refused** leaves the deltas alone. It writes nothing to the pools, unless an addition or
the new context of an exchange finds its identity taken: an addition puts its context in the place of
the live one, and an exchange removes the old context besides. So a change that is refused leaves the
store unchanged if and only if it is not the addition of a context with another value, and an exchange
if and only if the old context is not live. -/
theorem refusals_write {s s' : FactStore} {e : Failure} :
    (∀ c : Change, apply c s = .error e s' →
      s'.deltas = s.deltas ∧
      (∀ p id, s'.get? p id =
        if c.kind = .addition ∧ c.pattern = p ∧ c.id = id then some c.context else s.get? p id) ∧
      (s.Unchanged s' ↔ (c.kind = .addition → s.get? c.pattern c.id = some c.context))) ∧
    ∀ (p : String) (old : Nat) (new : Context), swap p old new s = .error e s' →
      s'.deltas = s.deltas ∧
      (∀ q id, s'.get? q id =
        if s.contains p old = true ∧ p = q then
          if new.id = id then some new else if old = id then none else s.get? q id
        else s.get? q id) ∧
      (s.Unchanged s' ↔ s.contains p old = false) := by
  refine ⟨fun c h => ?_, fun p old new h => ?_⟩
  · rw [apply_refused (isValid_of_apply_error h)] at h
    obtain ⟨-, rfl⟩ := EStateM.Result.error.inj h
    have hd := deltas_afterRefusal s c
    refine ⟨hd, get?_afterRefusal s c, (unchanged_iff hd).trans ⟨fun hsame hk => ?_, fun hsame p id => ?_⟩⟩
    · rw [← hsame, get?_afterRefusal, if_pos ⟨hk, rfl, rfl⟩]
    · rw [get?_afterRefusal]
      split_ifs with hc
      · rw [← hc.2.1, ← hc.2.2, hsame hc.1]
      · rfl
  · rcases swap_error h with ⟨hold, rfl⟩ | ⟨hold, hne, rfl⟩
    · refine ⟨rfl, fun q id => ?_, ⟨fun _ => hold, fun _ => ⟨fun _ => rfl, rfl⟩⟩⟩
      rw [if_neg fun hc => Bool.false_ne_true (hold.symm.trans hc.1)]
    · refine ⟨rfl, fun q id => ?_, ⟨fun hsame => ?_, fun habsent => ?_⟩⟩
      · simp only [hold, true_and]
        exact s.pools.live?_exchange p q old id new
      · -- The old context is gone.
        have hgone := s.pools.live?_exchange p p old old new
        rw [if_pos rfl, if_neg hne, if_pos rfl] at hgone
        have hlive := congrArg (·[old]?) (hsame.1 p)
        unfold contains at hold ⊢
        rw [ExtTreeMap.contains_eq_isSome_getElem?]
        exact congrArg Option.isSome (hlive.symm.trans hgone)
      · rw [hold] at habsent
        cases habsent

end FactStore

/-! ## A sample -/

namespace Sample

/-- A tank with a level. -/
def tank (id : Nat) (level : String) : Context :=
  ⟨id, ExtTreeMap.ofList [("level", level)]⟩

/-- A store with two tanks, one of them low and one high. -/
def twoTanks : FactStore :=
  ([⟨.addition, "tank", tank 0 "low"⟩, ⟨.addition, "tank", tank 1 "high"⟩].forM FactStore.apply).after {}

/-- The addition of the tank that is low, once more and full. -/
def secondAddition : Change :=
  ⟨.addition, "tank", tank 0 "full"⟩

theorem refusals_value :
    (FactStore.apply secondAddition).value twoTanks =
      .error (.inconsistent "adding context `ctx#0` to `tank` twice") ∧
    (FactStore.swap "tank" 0 (tank 1 "full")).value twoTanks =
      .error (.inconsistent "swapping in context #1 already live in `tank`") ∧
    twoTanks.contains "tank" 0 = true := by decide +kernel

end Sample

theorem FactStore.refusals_write_tanks :
    ∃ e s', apply Sample.secondAddition Sample.twoTanks = .error e s' ∧
      s'.get? "tank" 0 = some (Sample.tank 0 "full") ∧
      s'.get? "tank" 1 = Sample.twoTanks.get? "tank" 1 ∧
    ∃ e s', swap "tank" 0 (Sample.tank 1 "full") Sample.twoTanks = .error e s' ∧
      s'.get? "tank" 0 = none ∧ s'.get? "tank" 1 = some (Sample.tank 1 "full") := by
  obtain ⟨haddition, hswap, hlive⟩ := Sample.refusals_value
  obtain ⟨s₁, h₁⟩ := Routine.exists_of_value_error haddition
  obtain ⟨s₂, h₂⟩ := Routine.exists_of_value_error hswap
  obtain ⟨-, hadded, -⟩ := refusals_write.1 _ h₁
  obtain ⟨-, hswapped, -⟩ := refusals_write.2 _ _ _ h₂
  exact ⟨_, s₁, h₁, hadded "tank" 0, hadded "tank" 1, _, s₂, h₂,
    by rw [hswapped, if_pos ⟨hlive, rfl⟩]; rfl, by rw [hswapped, if_pos ⟨hlive, rfl⟩]; rfl⟩

/-- **A refusal that overwrites.** The tank that is low becomes full by an addition that is refused, and
by an exchange that is refused one tank is lost and the other one becomes full. -/
theorem FactStore.refusals_overwrite :
    (∃ e s', apply Sample.secondAddition Sample.twoTanks = .error e s' ∧
      ¬Sample.twoTanks.Unchanged s') ∧
    ∃ e s', swap "tank" 0 (Sample.tank 1 "full") Sample.twoTanks = .error e s' ∧
      ¬Sample.twoTanks.Unchanged s' := by
  obtain ⟨haddition, hswap, -⟩ := Sample.refusals_value
  obtain ⟨s₁, h₁⟩ := Routine.exists_of_value_error haddition
  obtain ⟨s₂, h₂⟩ := Routine.exists_of_value_error hswap
  refine ⟨⟨_, s₁, h₁, fun h => ?_⟩, _, s₂, h₂, fun h => ?_⟩
  · have hlow : (Sample.twoTanks.pool "tank")[0]? = some (Sample.tank 0 "low") := by decide +kernel
    have hfull : ((apply Sample.secondAddition).after Sample.twoTanks).get? "tank" 0 =
        some (Sample.tank 0 "full") := by decide +kernel
    rw [Routine.after_eq_of_error h₁, get?, h.1, hlow] at hfull
    exact absurd hfull (by decide +kernel)
  · have hlive : (Sample.twoTanks.pool "tank")[0]?.isSome = true := by decide +kernel
    have hgone : ((swap "tank" 0 (Sample.tank 1 "full")).after Sample.twoTanks).get? "tank" 0 = none := by
      decide +kernel
    rw [Routine.after_eq_of_error h₂, get?, h.1] at hgone
    rw [hgone] at hlive
    cases hlive

end RuleMonitor
