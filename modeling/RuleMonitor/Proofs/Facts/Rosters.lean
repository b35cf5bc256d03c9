import Mathlib.Data.List.Intervals
import RuleMonitor.Proofs.Facts.Pools
import RuleMonitor.Proofs.Script.Cursors
import RuleMonitor.Roster

/-!
# Rosters and pools

A roster keeps in one map what pools keep by pattern. Each of its operations that succeeds answers a
change that is valid on the pools and makes the same of them, and one that fails changes nothing. The
additions of a snapshot make the pools anew.

* `Roster.Moves`: what operations that succeed do; `Roster.Operates`: those that do not change nothing.
* `Roster.Holds`: a roster and pools with the same live contexts; **`Roster.Holds.moves`**: they stay so.
* `Roster.Named`: names are found under live contexts that have them; **`Roster.Named.moves`**.
* **`Roster.Holds.snapshot`**: the pools are what the snapshot leads to, and so it is pattern by pattern.
-/

namespace RuleMonitor

open Std (ExtTreeMap)

/-- The identities of the contexts that changes add. -/
def Change.added (log : List Change) : List Nat :=
  (log.filter (·.kind = .addition)).map Change.id

namespace Roster

variable {r r' : Roster} {P : Pools} {c : Change} {id : Nat} {p : String} {a : Attributes}

/-! ## What the operations do -/

/-- What an operation that succeeds does: the change that it answers, and the roster that it leaves. -/
inductive Moves (r : Roster) : Change → Roster → Prop
  /-- A context with the next identity. Its name, if it has one, was free. -/
  | addition {p : String} {c : Context} {names : ExtTreeMap String Nat} (hid : c.id = r.next)
      (hnew : ∀ n, c.attribute? "name" = some n → r.byName? n = none)
      (hnames : ∀ n, names[n]? = if c.attribute? "name" = some n then some c.id else r.names[n]?) :
      Moves r ⟨.addition, p, c⟩ { next := r.next + 1, live := r.live.insert c.id (p, c), names }
  /-- A live context, whose name is free again. -/
  | deletion {id : Nat} {p : String} {c : Context} {names : ExtTreeMap String Nat}
      (hlive : r.live[id]? = some (p, c))
      (hnames : ∀ n, names[n]? = if c.attribute? "name" = some n then none else r.names[n]?) :
      Moves r ⟨.deletion, p, c⟩ { r with live := r.live.erase id, names }
  /-- A live context, which keeps its identity and its name. -/
  | update {id : Nat} {p : String} {old new : Context} (hlive : r.live[id]? = some (p, old))
      (hid : new.id = old.id) (hname : new.attribute? "name" = old.attribute? "name") :
      Moves r ⟨.update, p, new⟩ { r with live := r.live.insert id (p, new) }

/-- The identity of a context that is added is the next one. -/
theorem Moves.added_eq (h : r.Moves c r') :
    r.next ≤ r'.next ∧ Change.added [c] = List.Ico r.next r'.next := by
  cases h with
  | addition hid =>
    refine ⟨Nat.le_succ _, ?_⟩
    rw [List.Ico.succ_singleton, ← hid]
    rfl
  | deletion | update => exact ⟨Nat.le_refl _, List.Ico.self_empty.symm⟩

/-- An operation that succeeds moves the roster, by a change of a pattern that is allowed. One that does not
leaves it as it was, and its error is not fatal. -/
structure Operates (allowed : Roster → String → Prop) (x : Routine Roster Change) : Prop where
  ok : ∀ {r c r'}, x r = .ok c r' → r.Moves c r' ∧ allowed r c.pattern
  error : ∀ {r e r'}, x r = .error e r' → r' = r ∧ e.isFatal = false

theorem operates_add (p : String) (a : Attributes) : Operates (fun _ q => q = p) (add p a) where
  ok {r c r'} h := by
    unfold add at h
    rw [Routine.get_bind] at h
    cases hn : Context.attribute? ⟨r.next, a⟩ "name" with
    | none =>
      simp only [hn] at h
      cases h
      exact ⟨.addition rfl (fun n e => nomatch hn.symm.trans e) fun n => by rw [hn, if_neg nofun], rfl⟩
    | some name =>
      simp only [hn] at h
      split_ifs at h with hfree
      · cases h
      · cases h
        refine ⟨.addition rfl (fun n e => ?_) fun n => ?_, rfl⟩
        · obtain rfl := Option.some.inj (hn.symm.trans e)
          rw [ExtTreeMap.contains_eq_isSome_getElem?, Option.not_isSome_iff_eq_none] at hfree
          exact hfree
        · rw [Map.getElem?_insert, hn]
          simp only [Option.some.injEq]
  error {r e r'} h := by
    unfold add at h
    rw [Routine.get_bind] at h
    cases hn : Context.attribute? ⟨r.next, a⟩ "name" with
    | none =>
      simp only [hn] at h
      cases h
    | some name =>
      simp only [hn] at h
      split_ifs at h
      · cases h
        exact ⟨rfl, rfl⟩
      · cases h

theorem operates_remove (id : Nat) : Operates (fun r q => r.patternOf? id = some q) (remove id) where
  ok {r c r'} h := by
    unfold remove at h
    rw [Routine.get_bind] at h
    cases hd : r.live[id]? with
    | none =>
      simp only [hd] at h
      cases h
    | some entry =>
      simp only [hd] at h
      cases h
      refine ⟨.deletion hd fun n => ?_, by rw [patternOf?, hd]; rfl⟩
      cases entry.2.attribute? "name" with
      | none => rw [if_neg nofun]
      | some name =>
        rw [Map.getElem?_erase]
        simp only [Option.some.injEq]
  error {r e r'} h := by
    unfold remove at h
    rw [Routine.get_bind] at h
    cases hd : r.live[id]? with
    | none =>
      simp only [hd] at h
      cases h
      exact ⟨rfl, rfl⟩
    | some entry =>
      simp only [hd] at h
      cases h

theorem foldl_withAttribute (l : List (String × String)) (c : Context) :
    l.foldl (fun c entry => c.withAttribute entry.1 entry.2) c =
      { c with attributes := c.attributes.insertMany l } := by
  induction l generalizing c with
  | nil => rw [ExtTreeMap.insertMany_nil]; rfl
  | cons e l ih =>
    rw [List.foldl_cons, ih, ExtTreeMap.insertMany_cons]
    rfl

theorem attribute?_name_of_renames {c : Context} (h : renames c a = false) :
    (a.toList.foldl (fun c entry => c.withAttribute entry.1 entry.2) c).attribute? "name" =
      c.attribute? "name" := by
  rw [foldl_withAttribute]
  unfold renames at h
  unfold Context.attribute? at h ⊢
  rw [Map.getElem?_insertMany_toList]
  cases ha : a["name"]? with
  | none => rfl
  | some name =>
    simp only [ha, decide_eq_false_iff_not, not_not] at h
    exact h.symm

theorem operates_update (id : Nat) (a : Attributes) :
    Operates (fun r q => r.patternOf? id = some q) (update id a) where
  ok {r c r'} h := by
    unfold update at h
    rw [Routine.get_bind] at h
    cases hd : r.live[id]? with
    | none =>
      simp only [hd] at h
      cases h
    | some entry =>
      simp only [hd] at h
      split_ifs at h with hname
      · cases h
      · cases h
        refine ⟨.update hd ?_ (attribute?_name_of_renames (Bool.not_eq_true _ ▸ hname)), ?_⟩
        · rw [foldl_withAttribute]
        · rw [patternOf?, hd]
          rfl
  error {r e r'} h := by
    unfold update at h
    rw [Routine.get_bind] at h
    cases hd : r.live[id]? with
    | none =>
      simp only [hd] at h
      cases h
      exact ⟨rfl, rfl⟩
    | some entry =>
      simp only [hd] at h
      split_ifs at h
      · cases h
        exact ⟨rfl, rfl⟩
      · cases h

/-! ## Operations that succeed -/

theorem add_ok {name : String} (hname : a["name"]? = some name) (hnew : r.byName? name = none) :
    add p a r = .ok ⟨.addition, p, ⟨r.next, a⟩⟩
      { next := r.next + 1
        live := r.live.insert r.next (p, ⟨r.next, a⟩)
        names := r.names.insert name r.next } := by
  have hfree : r.names.contains name = false := by
    rw [ExtTreeMap.contains_eq_isSome_getElem?]
    exact Option.isSome_eq_false_iff.mpr (Option.isNone_iff_eq_none.mpr hnew)
  have hname : Context.attribute? ⟨r.next, a⟩ "name" = some name := hname
  rw [add, Routine.get_bind]
  simp only [hname, hfree]
  rfl

theorem remove_ok {x : Context} {name : String} (hlive : r.live[id]? = some (p, x))
    (hname : x.attribute? "name" = some name) :
    remove id r = .ok ⟨.deletion, p, x⟩
      { r with live := r.live.erase id, names := r.names.erase name } := by
  rw [remove, Routine.get_bind]
  simp only [hlive, hname]
  rfl

theorem update_ok {x : Context} (hlive : r.live[id]? = some (p, x)) (hname : a["name"]? = none) :
    update id a r = .ok ⟨.update, p, { x with attributes := x.attributes.insertMany a.toList }⟩
      { r with live := r.live.insert id (p, { x with attributes := x.attributes.insertMany a.toList }) } := by
  have hrenames : renames x a = false := by
    rw [renames, hname]
  rw [update, Routine.get_bind]
  simp only [hlive, hrenames, foldl_withAttribute]
  rfl

/-! ## Rosters that hold pools -/

/-- The live contexts of the roster are those of the pools. They are kept under their identities, which
were all given out. -/
structure Holds (r : Roster) (P : Pools) : Prop where
  live : ∀ p id c, P.live? p id = some c ↔ r.live[id]? = some (p, c)
  keyed : ∀ id p (c : Context), r.live[id]? = some (p, c) → c.id = id
  given : ∀ id p c, r.live[id]? = some (p, c) → id < r.next

theorem holds_empty : Holds {} ∅ where
  live p id c := by
    rw [Pools.live?_empty, ExtTreeMap.getElem?_empty]
    exact ⟨nofun, nofun⟩
  keyed id p c h := by
    rw [ExtTreeMap.getElem?_empty] at h
    cases h
  given id p c h := by
    rw [ExtTreeMap.getElem?_empty] at h
    cases h

namespace Holds

theorem live?_eq_none (h : r.Holds P) (hn : r.live[id]? = none) (p : String) : P.live? p id = none :=
  Option.eq_none_iff_forall_ne_some.mpr fun c hc =>
    nomatch hn.symm.trans ((h.live p id c).mp hc)

theorem pattern_eq (h : r.Holds P) {c : Context} (hc : r.live[id]? = some (p, c)) {q : String}
    {d : Context} (hd : P.live? q id = some d) : q = p :=
  congrArg Prod.fst (Option.some.inj (((h.live q id d).mp hd).symm.trans hc))

/-- A context is put in the place of one of its pattern, or where none was. -/
theorem put (h : r.Holds P) {c : Context} {names : ExtTreeMap String Nat} {next : Nat} (hid : c.id < next)
    (hnext : r.next ≤ next) (hplace : ∀ q d, r.live[c.id]? = some (q, d) → q = p) {kind : ChangeKind}
    (hk : kind ≠ .deletion) :
    Holds { next, live := r.live.insert c.id (p, c), names } (P.step ⟨kind, p, c⟩) where
  live q id d := by
    have hout : Change.outcome ⟨kind, p, c⟩ = some c := if_neg hk
    rw [Pools.live?_step, Map.getElem?_insert, hout]
    change (if p = q ∧ c.id = id then some c else P.live? q id) = some d ↔ _
    by_cases he : c.id = id
    · rw [if_pos he]
      by_cases hp : p = q
      · rw [if_pos ⟨hp, he⟩, hp]
        simp
      · rw [if_neg fun h => hp h.1, h.live, ← he]
        refine ⟨fun hd => absurd (hplace q d hd).symm hp, fun hd => ?_⟩
        exact absurd (congrArg Prod.fst (Option.some.inj hd)) hp
    · rw [if_neg he, if_neg fun h => he h.2]
      exact h.live q id d
  keyed id q d hd := by
    rw [Map.getElem?_insert] at hd
    split_ifs at hd with he
    · cases hd
      exact he
    · exact h.keyed id q d hd
  given id q d hd := by
    rw [Map.getElem?_insert] at hd
    split_ifs at hd with he
    · exact he ▸ hid
    · exact Nat.lt_of_lt_of_le (h.given id q d hd) hnext

/-- **A move of the roster** is a change that is valid on the pools, and makes the same of them. -/
theorem moves (h : r.Holds P) (hm : r.Moves c r') : c.isValid P = true ∧ r'.Holds (P.step c) := by
  have hvalid : ∀ {c : Change}, ((P.live? c.pattern c.id).isSome = true ↔ c.kind ≠ .addition) →
      c.isValid P = true := fun h => (Pools.isValid_iff _ P).mpr h
  cases hm with
  | @addition p d names hid hnew hnames =>
    have hfree : r.live[d.id]? = none := Option.eq_none_iff_forall_ne_some.mpr fun e he =>
      absurd (hid ▸ h.given d.id e.1 e.2 he) (Nat.lt_irrefl _)
    refine ⟨hvalid ?_, h.put (c := d) ?_ (Nat.le_succ _) (fun q e he => nomatch hfree.symm.trans he) nofun⟩
    · change (P.live? p d.id).isSome = true ↔ _
      rw [h.live?_eq_none hfree]
      exact ⟨nofun, fun hne => absurd rfl hne⟩
    · exact hid ▸ Nat.lt_succ_self _
  | @deletion id p d names hd hnames =>
    have hid : d.id = id := h.keyed id p d hd
    have hlive : P.live? p id = some d := (h.live p id d).mpr hd
    refine ⟨hvalid ?_, fun q k e => ?_, fun k q e he => ?_, fun k q e he => ?_⟩
    · change (P.live? p d.id).isSome = true ↔ _
      rw [hid, hlive]
      exact ⟨nofun, fun _ => rfl⟩
    · rw [Pools.live?_step, Map.getElem?_erase]
      change (if p = q ∧ d.id = k then none else P.live? q k) = some e ↔ _
      by_cases hk : id = k
      · subst hk
        rw [if_pos rfl]
        refine ⟨fun he => ?_, nofun⟩
        split_ifs at he with hp
        exact absurd ⟨(h.pattern_eq hd he).symm, hid⟩ hp
      · rw [if_neg hk, if_neg fun hp => hk (hid.symm.trans hp.2)]
        exact h.live q k e
    · rw [Map.getElem?_erase] at he
      split_ifs at he
      exact h.keyed k q e he
    · rw [Map.getElem?_erase] at he
      split_ifs at he
      exact h.given k q e he
  | @update id p old new hold hid hname =>
    obtain rfl : new.id = id := hid.trans (h.keyed id p old hold)
    have hlive : P.live? p new.id = some old := (h.live p new.id old).mpr hold
    refine ⟨hvalid ?_, h.put (h.given new.id p old hold) (Nat.le_refl _) (fun q e he => ?_) nofun⟩
    · change (P.live? p new.id).isSome = true ↔ _
      rw [hlive]
      exact ⟨nofun, fun _ => rfl⟩
    · exact congrArg Prod.fst (Option.some.inj (he.symm.trans hold))

end Holds

/-! ## Names -/

/-- Names are found under live contexts that have them. -/
def Named (r : Roster) : Prop :=
  ∀ n id, r.byName? n = some id → ∃ p c, r.live[id]? = some (p, c) ∧ c.attribute? "name" = some n

theorem named_empty : Named {} := fun n id h => by
  unfold byName? at h
  rw [ExtTreeMap.getElem?_empty] at h
  cases h

/-- **A move of the roster** keeps the names right. -/
theorem Named.moves (h : r.Named) (hP : r.Holds P) (hm : r.Moves c r') : r'.Named := by
  intro n k hk
  cases hm with
  | @addition p d names hid hnew hnames =>
    change names[n]? = some k at hk
    rw [hnames] at hk
    dsimp only
    rw [Map.getElem?_insert]
    split_ifs at hk with hn
    · cases hk
      exact ⟨p, d, if_pos rfl, hn⟩
    · obtain ⟨q, e, he, hname⟩ := h n k hk
      have hne : d.id ≠ k := fun hdk => Nat.lt_irrefl _ (hid ▸ hdk ▸ hP.given k q e he)
      exact ⟨q, e, (if_neg hne).trans he, hname⟩
  | @deletion id p d names hd hnames =>
    change names[n]? = some k at hk
    rw [hnames] at hk
    dsimp only
    split_ifs at hk with hn
    obtain ⟨q, e, he, hname⟩ := h n k hk
    have hne : id ≠ k := by
      rintro rfl
      obtain ⟨rfl, rfl⟩ := Prod.mk.inj (Option.some.inj (hd.symm.trans he))
      exact hn hname
    exact ⟨q, e, by rw [Map.getElem?_erase, if_neg hne, he], hname⟩
  | @update id p old new hold hid hname =>
    obtain ⟨q, e, he, hn⟩ := h n k hk
    dsimp only
    rw [Map.getElem?_insert]
    by_cases hk : id = k
    · subst hk
      obtain ⟨rfl, rfl⟩ := Prod.mk.inj (Option.some.inj (hold.symm.trans he))
      exact ⟨p, new, if_pos rfl, hname.trans hn⟩
    · exact ⟨q, e, (if_neg hk).trans he, hn⟩

end Roster

/-! ## Snapshots -/

namespace Pools

theorem after?_additions {l : List (String × Context)} : ∀ {P : Pools},
    (l.map fun e => e.2.id).Nodup → (∀ e ∈ l, P.live? e.1 e.2.id = none) →
    ∃ Q, P.after? (l.map fun e => ⟨.addition, e.1, e.2⟩) = some Q ∧
      ∀ p id c, Q.live? p id = some c ↔ (p, c) ∈ l ∧ c.id = id ∨ P.live? p id = some c := by
  induction l with
  | nil => exact fun {P} _ _ => ⟨P, rfl, by simp⟩
  | cons e l ih =>
    intro P hn hfree
    rw [List.map_cons, List.nodup_cons] at hn
    rw [List.forall_mem_cons] at hfree
    have hne : ∀ e' ∈ l, e.2.id ≠ e'.2.id := fun e' he' h =>
      hn.1 (List.mem_map.mpr ⟨e', he', h.symm⟩)
    let a : Change := ⟨.addition, e.1, e.2⟩
    have hvalid : a.isValid P = true := by
      rw [isValid_iff]
      change (P.live? e.1 e.2.id).isSome = true ↔ _
      rw [hfree.1]
      exact ⟨nofun, fun h => absurd rfl h⟩
    have hstep : ∀ p id, (P.step a).live? p id =
        if e.1 = p ∧ e.2.id = id then some e.2 else P.live? p id := live?_step P a
    obtain ⟨Q, hQ, hlive⟩ := ih (P := P.step a) hn.2 fun e' he' => by
      rw [hstep, if_neg fun h => hne e' he' h.2]
      exact hfree.2 e' he'
    refine ⟨Q, after?_cons_eq_some.mpr ⟨hvalid, hQ⟩, fun p id c => ?_⟩
    rw [hlive, hstep, List.mem_cons]
    by_cases he : e.1 = p ∧ e.2.id = id
    · obtain ⟨rfl, rfl⟩ := he
      rw [if_pos ⟨rfl, rfl⟩, hfree.1, Option.some.injEq, Prod.ext_iff]
      refine ⟨?_, ?_⟩
      · rintro (⟨hm, hid⟩ | rfl)
        · exact .inl ⟨.inr hm, hid⟩
        · exact .inl ⟨.inl ⟨rfl, rfl⟩, rfl⟩
      · rintro (⟨⟨-, rfl⟩ | hm, hid⟩ | h)
        · exact .inr rfl
        · exact .inl ⟨hm, hid⟩
        · cases h
    · rw [if_neg he]
      refine or_congr_left ⟨fun h => ⟨.inr h.1, h.2⟩, ?_⟩
      rintro ⟨rfl | hm, hid⟩
      · exact absurd ⟨rfl, hid⟩ he
      · exact ⟨hm, hid⟩

end Pools

theorem Roster.Holds.live?_iff_mem_snapshot {r : Roster} {P : Pools} (h : r.Holds P) {p : String}
    {id : Nat} {c : Context} :
    P.live? p id = some c ↔ c.id = id ∧ ⟨.addition, p, c⟩ ∈ r.snapshot := by
  unfold Roster.snapshot
  rw [h.live, List.mem_map]
  constructor
  · exact fun hc => ⟨h.keyed id p c hc, (p, c), Map.mem_values.mpr ⟨id, hc⟩, rfl⟩
  · rintro ⟨rfl, ⟨q, e⟩, he, heq⟩
    obtain ⟨-, rfl, rfl⟩ := Change.mk.inj heq
    obtain ⟨k, hk⟩ := Map.mem_values.mp he
    exact (h.keyed k q e hk).symm ▸ hk

/-- **The additions of a snapshot**, as far as some patterns go, lead to the pools of these patterns. -/
theorem Roster.Holds.snapshot {r : Roster} {P : Pools} (h : r.Holds P) (keep : String → Bool) :
    ∃ Q, (∅ : Pools).after? (r.snapshot.filter fun c => keep c.pattern) = some Q ∧
      ∀ p, keep p = true → Q.pool p = P.pool p := by
  have hnodup : (r.live.values.map fun e => e.2.id).Nodup :=
    Map.nodup_map_values fun id e he => h.keyed id e.1 e.2 he
  obtain ⟨Q, hQ, hlive⟩ := Pools.after?_additions (P := ∅)
    (l := r.live.values.filter fun e => keep e.1)
    (hnodup.sublist (List.filter_sublist.map _)) fun e _ => Pools.live?_empty _ _
  refine ⟨Q, ?_, fun p hp => Pools.pool_ext fun id => Option.ext fun c => ?_⟩
  · unfold Roster.snapshot
    rw [List.filter_map]
    exact hQ
  · rw [hlive, h.live, Pools.live?_empty, List.mem_filter, Map.mem_values]
    refine ⟨?_, fun hc => .inl ⟨⟨⟨id, hc⟩, hp⟩, h.keyed id p c hc⟩⟩
    rintro (⟨⟨⟨k, hk⟩, -⟩, rfl⟩ | hc)
    · exact (h.keyed k p c hk).symm ▸ hk
    · cases hc

end RuleMonitor
