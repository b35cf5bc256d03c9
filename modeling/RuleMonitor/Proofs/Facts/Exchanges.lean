import RuleMonitor.Proofs.Routines
import RuleMonitor.Proofs.Facts.Pools

/-!
# One context in the place of another

A context may take the place of a live one in a pool, under its own identity. A quantifier over the
pattern then ranges over the same contexts but for the one exchanged, if it admits both or neither.

* `Pools.exchange`: the pools with one context in the place of another.
* `Pools.live?_exchange`: the contexts after an exchange.
* **`Pools.step_exchange`**, `Pools.after?_exchange`: the batch that amounts to an exchange.
* **`Pools.range_exchange`**: what a quantifier ranges over after an exchange.
* `FactStore.swap_ok`: an exchange in a store.
-/

namespace RuleMonitor

/-- The context `new` in the place of `old`. -/
def Context.instead (old new x : Context) : Context :=
  if x.id = old.id then new else x

namespace Pools

variable {P : Pools} {p : String} {old new : Context}

/-- The pools with the context `new` of a pattern in the place of the one with the identity `old`. -/
def exchange (P : Pools) (p : String) (old : Nat) (new : Context) : Pools :=
  P.insert p (((P.pool p).erase old).insert new.id new)

/-- The context `new` can take the place of the live context `old`. -/
structure Exchangeable (P : Pools) (p : String) (old new : Context) : Prop where
  live : P.live? p old.id = some old
  free : new.id ≠ old.id → P.live? p new.id = none

theorem pool_exchange_of_ne (P : Pools) {p' : String} (h : p ≠ p') (old : Nat) (new : Context) :
    (P.exchange p old new).pool p' = P.pool p' := by
  unfold exchange
  rw [pool_insert, if_neg h]

/-- **The contexts after an exchange.** -/
theorem live?_exchange (P : Pools) (p p' : String) (old id : Nat) (new : Context) :
    (P.exchange p old new).live? p' id =
      if p = p' then
        if new.id = id then some new else if old = id then none else P.live? p' id
      else P.live? p' id := by
  unfold live? exchange
  rw [pool_insert]
  split_ifs with hp hn ho
  · rw [Map.getElem?_insert, if_pos hn]
  · rw [Map.getElem?_insert, if_neg hn, Map.getElem?_erase, if_pos ho]
  · rw [Map.getElem?_insert, if_neg hn, Map.getElem?_erase, if_neg ho, hp]
  · rfl

/-- **An exchange** is a deletion followed by an addition. -/
theorem step_exchange (P : Pools) (p : String) (old new : Context) :
    (P.step ⟨.deletion, p, old⟩).step ⟨.addition, p, new⟩ = P.exchange p old.id new := by
  let Q := P.step ⟨.deletion, p, old⟩
  have hpool : Q.pool p = (P.pool p).erase old.id := (pool_insert P p p _).trans (if_pos rfl)
  refine Std.ExtTreeMap.ext_getElem? fun p' => ?_
  change (Q.insert p ((Q.pool p).insert new.id new))[p']? =
    (P.insert p (((P.pool p).erase old.id).insert new.id new))[p']?
  rw [hpool, Map.getElem?_insert, Map.getElem?_insert]
  split_ifs with hp
  · rfl
  · exact (Map.getElem?_insert _ _ _ _).trans (if_neg hp)

theorem after?_exchange (h : P.Exchangeable p old new) :
    P.after? [⟨.deletion, p, old⟩, ⟨.addition, p, new⟩] = some (P.exchange p old.id new) := by
  have hdel : Change.isValid ⟨.deletion, p, old⟩ P = true :=
    (isValid_iff _ _).mpr ⟨nofun, fun _ => Option.isSome_of_eq_some h.live⟩
  have hnone : (P.step ⟨.deletion, p, old⟩).live? p new.id = none := by
    rw [live?_step]
    split_ifs with hid
    · rfl
    · exact h.free fun e => hid ⟨rfl, e.symm⟩
  have hadd : Change.isValid ⟨.addition, p, new⟩ (P.step ⟨.deletion, p, old⟩) = true := by
    rw [isValid_iff]
    change ((P.step ⟨.deletion, p, old⟩).live? p new.id).isSome = true ↔ _
    rw [hnone]
    exact ⟨nofun, fun hne => absurd rfl hne⟩
  rw [← step_exchange]
  exact after?_cons_eq_some.mpr ⟨hdel, after?_cons_eq_some.mpr ⟨hadd, rfl⟩⟩

theorem trail_exchange (P : Pools) (p : String) (old new : Context) :
    P.trail [⟨.deletion, p, old⟩, ⟨.addition, p, new⟩] =
      [P.step ⟨.deletion, p, old⟩, P.exchange p old.id new] := by
  rw [← step_exchange]
  rfl

theorem Keyed.exchange (hP : P.Keyed) (p : String) (old : Nat) (new : Context) :
    (P.exchange p old new).Keyed := by
  intro p' id c hc
  rw [live?_exchange] at hc
  split_ifs at hc with hp hn ho
  · cases hc
    exact hn
  · exact hP p' id c hc
  · exact hP p' id c hc

theorem Exchangeable.injective (h : P.Exchangeable p old new) {x y : Context}
    (hx : P.live? p x.id = some x) (hy : P.live? p y.id = some y)
    (e : old.instead new x = old.instead new y) : x = y := by
  have hnew : ∀ {z : Context}, P.live? p z.id = some z → z.id ≠ old.id → new ≠ z := by
    rintro z hz hne rfl
    rw [h.free hne] at hz
    cases hz
  have hold : ∀ {z : Context}, P.live? p z.id = some z → z.id = old.id → z = old := by
    intro z hz he
    rw [he, h.live] at hz
    exact (Option.some.inj hz).symm
  unfold Context.instead at e
  split_ifs at e with hxo hyo hyo
  · rw [hold hx hxo, hold hy hyo]
  · exact absurd e (hnew hy hyo)
  · exact absurd e.symm (hnew hx hxo)
  · exact e

/-- **What a quantifier ranges over after an exchange** that it cannot tell. -/
theorem range_exchange (h : P.Exchangeable p old new) (hP : P.Keyed) {q : Quantifier}
    (hq : q.pattern = p) {env : Env} (ha : q.admits env old = q.admits env new) :
    (q.range (P.exchange p old.id new) env).Perm ((q.range P env).map (old.instead new)) := by
  subst hq
  have hP' := hP.exchange q.pattern old.id new
  refine (List.perm_ext_iff_of_nodup (nodup_range hP' q env).of_map ?_).mpr fun x => ?_
  · refine List.Nodup.map_on (fun x hx y hy e => ?_) (nodup_range hP q env).of_map
    rw [mem_range hP] at hx hy
    exact h.injective hx.1 hy.1 e
  · rw [mem_range hP', live?_exchange, if_pos rfl, List.mem_map]
    constructor
    · rintro ⟨hx, hax⟩
      split_ifs at hx with hn ho
      · cases hx
        exact ⟨old, (mem_range hP).mpr ⟨h.live, ha.trans hax⟩, if_pos rfl⟩
      · exact ⟨x, (mem_range hP).mpr ⟨hx, hax⟩, if_neg fun e => ho e.symm⟩
    · rintro ⟨y, hy, rfl⟩
      rw [mem_range hP] at hy
      unfold Context.instead
      by_cases hyo : y.id = old.id
      · have hyold : y = old := by
          rw [hyo, h.live] at hy
          exact (Option.some.inj hy.1).symm
        rw [if_pos hyo, if_pos rfl, ← ha, ← hyold]
        exact ⟨rfl, hy.2⟩
      · rw [if_neg hyo]
        have hne : new.id ≠ y.id := by
          intro e
          have hfree := h.free fun e' => hyo (e.symm.trans e')
          rw [e, hy.1] at hfree
          cases hfree
        rw [if_neg hne, if_neg fun e => hyo e.symm]
        exact hy

end Pools

theorem FactStore.swap_ok {s : FactStore} {p : String} {old new : Context}
    (h : s.pools.Exchangeable p old new) :
    FactStore.swap p old.id new s = .ok () { s with pools := s.pools.exchange p old.id new } := by
  have hlive : (s.pool p).contains old.id = true :=
    (s.pools.contains_pool p old.id).trans (by rw [h.live]; rfl)
  have hfree : ((s.pool p).erase old.id).contains new.id = false := by
    rw [Std.ExtTreeMap.contains_eq_isSome_getElem?, Map.getElem?_erase]
    split_ifs with he
    · rfl
    · have := h.free fun e => he e.symm
      rw [show (s.pool p)[new.id]? = none from this]
      rfl
  unfold FactStore.swap
  rw [Routine.get_bind]
  simp only [hlive, hfree]
  rfl

end RuleMonitor
