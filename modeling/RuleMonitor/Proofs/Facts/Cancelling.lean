import RuleMonitor.Proofs.Facts.Exchanges

/-!
# Changes that cancel

A change may cancel one that waits in a batch, if no other change of the batch concerns the contexts of
either. The batch without the waiting change then leads to the pools that the batch and the change lead
to: at once if a context was to be added and is deleted again, and from the pools after an exchange of
the contexts if one is deleted and another one added.

* `Pools.Alike`: the same contexts are live.
* `Pools.after?_without`: a batch without one of its changes.
* **`Pools.after?_annihilate`**, **`Pools.after?_swap`**: the two ways to cancel.
-/

namespace RuleMonitor

namespace Pools

variable {P Q R : Pools} {ids : List Nat} {l l' : List Change} {c other : Change} {p : String}
  {del add : Context}

/-- The same contexts are live in the pools. -/
def Alike (P Q : Pools) : Prop :=
  ∀ p id, P.live? p id = Q.live? p id

theorem Alike.pool (h : P.Alike Q) (p : String) : P.pool p = Q.pool p :=
  pool_ext (h p)

/-- **A batch without one of its changes**, from pools that differ on its context at most, and with no
other change of the contexts on which they differ. -/
theorem after?_without (h : P.after? (l ++ other :: l') = some Q) (hR : AgreeOff ids P R)
    (hu : ∀ c ∈ l ++ l', c.id ∉ ids) (ho : other.id ∈ ids) :
    other.isValid P = true ∧ (∀ p, ∀ id ∈ ids, Q.live? p id = (P.step other).live? p id) ∧
      ∃ Q', R.after? (l ++ l') = some Q' ∧ AgreeOff ids Q Q' ∧
        ∀ p, ∀ id ∈ ids, Q'.live? p id = R.live? p id := by
  rw [List.forall_mem_append] at hu
  rw [after?_append] at h
  obtain ⟨P₁, h₁, h₂⟩ := Option.bind_eq_some_iff.mp h
  rw [after?_cons_eq_some] at h₂
  obtain ⟨R₁, hR₁, ha₁⟩ := hR.after? hu.1 h₁
  have hstep : AgreeOff ids (P₁.step other) R₁ := fun p id hid => by
    have hne : other.id ≠ id := fun e => hid (e ▸ ho)
    rw [live?_step_of_ne hne, ha₁ p id hid]
  obtain ⟨Q', hQ', ha⟩ := hstep.after? hu.2 h₂.2
  have hfirst : ∀ p, ∀ id ∈ ids, P₁.live? p id = P.live? p id := fun p id hid =>
    live?_after?_of_untouched h₁ fun c hc _ e => hu.1 c hc (e ▸ hid)
  refine ⟨?_, fun p id hid => ?_, Q', ?_, ha, fun p id hid => ?_⟩
  · rw [isValid_iff, ← hfirst _ _ ho]
    exact (isValid_iff other P₁).mp h₂.1
  · rw [live?_after?_of_untouched h₂.2 fun c hc _ e => hu.2 c hc (e ▸ hid), live?_step, live?_step,
      hfirst p id hid]
  · rw [after?_append, hR₁]
    exact hQ'
  · rw [live?_after?_of_untouched hQ' fun c hc _ e => hu.2 c hc (e ▸ hid),
      live?_after?_of_untouched hR₁ fun c hc _ e => hu.1 c hc (e ▸ hid)]

/-- **A context that was to be added** is deleted again: the batch without the addition does both. -/
theorem after?_annihilate (h : P.after? (l ++ other :: l') = some Q)
    (hu : ∀ c ∈ l ++ l', c.id ≠ other.id) (ho : other.kind = .addition) (hc : c.kind = .deletion)
    (hp : other.pattern = c.pattern) (hid : other.id = c.id) :
    ∃ Q', P.after? (l ++ l') = some Q' ∧ Q'.Alike (Q.step c) := by
  obtain ⟨hv, hQ, Q', hQ', ha, hlive⟩ := after?_without h
    (fun _ _ _ => rfl : AgreeOff [other.id] P P)
    (fun c hc => by simpa using hu c hc) List.mem_cons_self
  refine ⟨Q', hQ', fun p id => ?_⟩
  by_cases hx : id = other.id
  · subst hx
    have hnone : P.live? other.pattern other.id = none := by
      rw [isValid_iff, ho] at hv
      simpa using hv
    rw [hlive p _ List.mem_cons_self, live?_step, hQ p _ List.mem_cons_self, live?_step]
    by_cases hpp : other.pattern = p
    · rw [if_pos ⟨hp ▸ hpp, hid.symm⟩, Change.outcome, if_pos hc, ← hpp, hnone]
    · rw [if_neg fun h => hpp (hp.trans h.1), if_neg fun h => hpp h.1]
  · rw [← ha p id (by simpa using hx), live?_step_of_ne fun e => hx (e.symm.trans hid.symm)]

/-- The deletion and the addition that an exchange amounts to, in either order. -/
def IsExchange (c other : Change) (p : String) (del add : Context) : Prop :=
  c.pattern = p ∧ other.pattern = p ∧
    ((c.kind = .deletion ∧ c.id = del.id ∧ other.kind = .addition ∧ other.context = add ∧
        del.id ≠ add.id) ∨
      (c.kind = .addition ∧ c.context = add ∧ other.kind = .deletion ∧ other.id = del.id))

theorem IsExchange.mem_ids (h : IsExchange c other p del add) :
    c.id ∈ [del.id, add.id] ∧ other.id ∈ [del.id, add.id] := by
  rcases h.2.2 with ⟨-, hc, -, rfl, -⟩ | ⟨-, rfl, -, ho⟩
  · exact ⟨by simp [hc], by simp [Change.id]⟩
  · exact ⟨by simp [Change.id], by simp [ho]⟩

theorem IsExchange.eq_of_mem_ids (h : IsExchange c other p del add) {id : Nat}
    (hid : id ∈ [del.id, add.id]) : id = other.id ∨ id = c.id := by
  rw [List.mem_cons, List.mem_singleton] at hid
  rcases h.2.2 with ⟨-, hc, -, rfl, -⟩ | ⟨-, rfl, -, ho⟩
  · exact hid.symm.imp_right fun e => e.trans hc.symm
  · exact hid.imp_left fun e => e.trans ho.symm

/-- **A context is deleted and another one added**: the batch without the change that waits leads from
the pools after the exchange to those after both. -/
theorem after?_swap (h : P.after? (l ++ other :: l') = some Q) (hx : IsExchange c other p del add)
    (hu : ∀ c ∈ l ++ l', c.id ∉ [del.id, add.id]) :
    ∃ Q', (P.exchange p del.id add).after? (l ++ l') = some Q' ∧ Q'.Alike (Q.step c) := by
  obtain ⟨hcm, hom⟩ := hx.mem_ids
  have hagree : AgreeOff [del.id, add.id] P (P.exchange p del.id add) := fun p' id hid => by
    rw [List.mem_cons, List.mem_singleton, not_or] at hid
    rw [live?_exchange, if_neg (Ne.symm hid.2), if_neg (Ne.symm hid.1), ite_self]
  obtain ⟨-, hQ, Q', hQ', ha, hlive⟩ := after?_without h hagree hu hom
  refine ⟨Q', hQ', fun p' id => ?_⟩
  by_cases hid : id ∈ [del.id, add.id]
  · rw [hlive p' id hid, live?_step, hQ p' id hid, live?_step, live?_exchange]
    obtain ⟨hcp, hop, hkinds⟩ := hx
    rw [hcp, hop]
    rcases hkinds with ⟨hck, hci, hok, hoc, hne⟩ | ⟨hck, hcc, hok, hoi⟩
    · have hoid : other.id = add.id := congrArg Context.id hoc
      have hco : c.outcome = none := if_pos hck
      have hoo : other.outcome = some add := by
        rw [Change.outcome, hok, hoc]
        rfl
      rw [hci, hoid, hco, hoo]
      by_cases hp : p = p'
      · by_cases hd : del.id = id
        · have hna : add.id ≠ id := fun e => hne (hd.trans e.symm)
          simp [hp, hd, hna]
        · simp [hp, hd]
      · simp [hp]
    · have hcid : c.id = add.id := congrArg Context.id hcc
      have hco : c.outcome = some add := by
        rw [Change.outcome, hck, hcc]
        rfl
      have hoo : other.outcome = none := if_pos hok
      rw [hcid, hoi, hco, hoo]
      by_cases hp : p = p' <;> simp [hp]
  · have hne : c.id ≠ id := fun e => hid (e ▸ hcm)
    rw [← ha p' id hid, live?_step_of_ne hne]

theorem IsExchange.exchangeable (hx : IsExchange c other p del add)
    (h : P.after? (l ++ other :: l') = some Q) (hc : c.isValid Q = true)
    (hu : ∀ c ∈ l ++ l', c.id ∉ [del.id, add.id]) (hlive : P.live? p del.id = some del) :
    P.Exchangeable p del add := by
  refine ⟨hlive, fun hne => ?_⟩
  obtain ⟨hv, hQ, -⟩ := after?_without h (fun _ _ _ => rfl) hu hx.mem_ids.2
  obtain ⟨hcp, hop, hkinds⟩ := hx
  rcases hkinds with ⟨-, -, hok, hoc, -⟩ | ⟨hck, hcc, -, hoi⟩
  · rw [isValid_iff, hok, hop, Change.id, hoc] at hv
    simpa using hv
  · rw [isValid_iff, hck, hcp, Change.id, hcc, hQ p _ (by simp), live?_step, hoi,
      if_neg fun h => hne h.2.symm] at hc
    simpa using hc

end Pools

end RuleMonitor
