import Mathlib.Data.List.Forall2
import Mathlib.Data.List.Nodup
import Mathlib.Data.List.Perm.Basic
import Std.Data.ExtTreeMap
import Std.Data.ExtTreeSet

/-!
# Finite maps as lists of entries

A map is known by its look-ups, and a list of entries with different keys determines a map whatever
the order of the entries.

* `mem_values`: the values are what look-ups find.
* `getElem?_insertMany`, `getElem?_ofList`: look-ups after many insertions.
* `ofList_perm`, `ofList_append`: maps of lists of entries.
* `Lists.map_eq_of_forall₂`, `Lists.exists_of_forall₂`: lists related element by element.
-/

namespace RuleMonitor

open Std (ExtTreeMap ExtTreeSet TransOrd LawfulEqOrd TransCmp)

namespace Map

variable {κ ν : Type} [Ord κ] [TransOrd κ] [LawfulEqOrd κ] [DecidableEq κ]

omit [LawfulEqOrd κ] [DecidableEq κ] in
theorem values_eq_map_toList (m : ExtTreeMap κ ν) : m.values = m.toList.map Prod.snd := by
  have h : m.values = m.foldr (fun _ v l => v :: l) [] := by
    obtain ⟨⟨m⟩⟩ := m
    rfl
  rw [h, ExtTreeMap.foldr_eq_foldr_toList]
  induction m.toList with
  | nil => rfl
  | cons a l ih => rw [List.foldr_cons, ih, List.map_cons]

omit [DecidableEq κ] in
theorem mem_values {m : ExtTreeMap κ ν} {v : ν} : v ∈ m.values ↔ ∃ k : κ, m[k]? = some v := by
  rw [values_eq_map_toList, List.mem_map]
  constructor
  · rintro ⟨⟨k, v'⟩, h, rfl⟩
    exact ⟨k, ExtTreeMap.mem_toList_iff_getElem?_eq_some.mp h⟩
  · rintro ⟨k, h⟩
    exact ⟨(k, v), ExtTreeMap.mem_toList_iff_getElem?_eq_some.mpr h, rfl⟩

omit [DecidableEq κ] in
theorem nodup_map_fst_toList (m : ExtTreeMap κ ν) : (m.toList.map Prod.fst).Nodup := by
  rw [List.Nodup, List.pairwise_map]
  refine ExtTreeMap.distinct_keys_toList.imp fun {a b} h e => h ?_
  exact Std.LawfulEqCmp.compare_eq_iff_eq.mpr e

omit [DecidableEq κ] in
theorem map_values_eq {m : ExtTreeMap κ ν} {g : ν → κ}
    (h : ∀ (k : κ) v, m[k]? = some v → g v = k) : m.values.map g = m.toList.map Prod.fst := by
  rw [values_eq_map_toList, List.map_map]
  refine List.map_congr_left fun e he => ?_
  exact h e.1 e.2 (ExtTreeMap.mem_toList_iff_getElem?_eq_some.mp he)

omit [DecidableEq κ] in
theorem nodup_map_values {m : ExtTreeMap κ ν} {g : ν → κ}
    (h : ∀ (k : κ) v, m[k]? = some v → g v = k) : (m.values.map g).Nodup := by
  rw [map_values_eq h]
  exact nodup_map_fst_toList m

theorem sorted_map_values {m : ExtTreeMap Nat ν} {g : ν → Nat}
    (h : ∀ (k : Nat) v, m[k]? = some v → g v = k) : (m.values.map g).Pairwise (· < ·) := by
  rw [map_values_eq h, List.pairwise_map]
  exact ExtTreeMap.ordered_keys_toList.imp fun hlt => Nat.compare_eq_lt.mp hlt

omit [DecidableEq κ] in
theorem getElem?_insert (m : ExtTreeMap κ ν) (k a : κ) (v : ν) [Decidable (k = a)] :
    (m.insert k v)[a]? = if k = a then some v else m[a]? := by
  rw [ExtTreeMap.getElem?_insert]
  simp only [Std.LawfulEqCmp.compare_eq_iff_eq]

omit [DecidableEq κ] in
theorem insert_eq_self {m : ExtTreeMap κ ν} {k : κ} {v : ν} (h : m[k]? = some v) :
    m.insert k v = m := by
  classical
  refine ExtTreeMap.ext_getElem? fun a => ?_
  rw [getElem?_insert]
  split_ifs with e
  · rw [← e, h]
  · rfl

omit [DecidableEq κ] in
theorem getElem?_erase (m : ExtTreeMap κ ν) (k a : κ) [Decidable (k = a)] :
    (m.erase k)[a]? = if k = a then none else m[a]? := by
  rw [ExtTreeMap.getElem?_erase]
  simp only [Std.LawfulEqCmp.compare_eq_iff_eq]

/-! ## Many insertions -/

/-- **Look-ups after many insertions** under different keys. -/
theorem getElem?_insertMany {m : ExtTreeMap κ ν} {l : List (κ × ν)} (h : (l.map Prod.fst).Nodup)
    {k : κ} {v : ν} : (m.insertMany l)[k]? = some v ↔
      (k, v) ∈ l ∨ k ∉ l.map Prod.fst ∧ m[k]? = some v := by
  induction l generalizing m with
  | nil => simp
  | cons e l ih =>
    obtain ⟨a, b⟩ := e
    rw [List.map_cons, List.nodup_cons] at h
    rw [ExtTreeMap.insertMany_cons, ih h.2, getElem?_insert]
    by_cases ha : a = k
    · subst ha
      have hv : ∀ w, (a, w) ∉ l := fun w hw => h.1 (List.mem_map.mpr ⟨(a, w), hw, rfl⟩)
      simp only [hv, h.1, if_true, not_false_eq_true, true_and, false_or, List.mem_cons,
        Prod.mk.injEq, or_false, List.map_cons, not_true, false_and]
      simp only [Option.some.injEq, eq_comm]
    · simp only [ha, if_false, List.mem_cons, Prod.mk.injEq, Ne.symm ha, false_and, false_or,
        List.map_cons]

theorem getElem?_insertMany_eq_none {m : ExtTreeMap κ ν} {l : List (κ × ν)}
    (h : (l.map Prod.fst).Nodup) {k : κ} :
    (m.insertMany l)[k]? = none ↔ k ∉ l.map Prod.fst ∧ m[k]? = none := by
  constructor
  · intro hn
    have hk : k ∉ l.map Prod.fst := by
      intro hk
      obtain ⟨⟨k', v⟩, hv, rfl⟩ := List.mem_map.mp hk
      rw [(getElem?_insertMany h).mpr (.inl hv)] at hn
      cases hn
    refine ⟨hk, Option.eq_none_iff_forall_ne_some.mpr fun v hv => ?_⟩
    rw [(getElem?_insertMany h).mpr (.inr ⟨hk, hv⟩)] at hn
    cases hn
  · rintro ⟨hk, hm⟩
    refine Option.eq_none_iff_forall_ne_some.mpr fun v hv => ?_
    rcases (getElem?_insertMany h).mp hv with hv | ⟨-, hv⟩
    · exact hk (List.mem_map.mpr ⟨(k, v), hv, rfl⟩)
    · rw [hm] at hv
      cases hv

theorem getElem?_insertMany_toList (m a : ExtTreeMap κ ν) (k : κ) :
    (m.insertMany a.toList)[k]? = (a[k]?).or m[k]? := by
  have hmem : ∀ {v}, (k, v) ∈ a.toList ↔ a[k]? = some v := ExtTreeMap.mem_toList_iff_getElem?_eq_some
  refine Option.ext fun v => ?_
  rw [getElem?_insertMany (nodup_map_fst_toList a), hmem, Option.or_eq_some_iff]
  refine or_congr_right (and_congr_left fun _ => ?_)
  rw [Option.eq_none_iff_forall_ne_some, List.mem_map]
  exact ⟨fun h v hv => h ⟨(k, v), hmem.mpr hv, rfl⟩, fun h ⟨⟨_, v⟩, hv, e⟩ => h v (hmem.mp (e ▸ hv))⟩

theorem getElem?_ofList {l : List (κ × ν)} (h : (l.map Prod.fst).Nodup) {k : κ} {v : ν} :
    (ExtTreeMap.ofList l)[k]? = some v ↔ (k, v) ∈ l := by
  rw [ExtTreeMap.ofList_eq_insertMany_empty, getElem?_insertMany h]
  simp

theorem insertMany_toList_ofList (m : ExtTreeMap κ ν) {l : List (κ × ν)} (h : (l.map Prod.fst).Nodup) :
    m.insertMany (ExtTreeMap.ofList l).toList = m.insertMany l := by
  refine ExtTreeMap.ext_getElem? fun k => Option.ext fun v => ?_
  have hnone : (ExtTreeMap.ofList l)[k]? = none ↔ k ∉ l.map Prod.fst := by
    rw [ExtTreeMap.ofList_eq_insertMany_empty, getElem?_insertMany_eq_none h, ExtTreeMap.getElem?_empty]
    exact and_iff_left rfl
  rw [getElem?_insertMany_toList, getElem?_insertMany h, Option.or_eq_some_iff, getElem?_ofList h, hnone]

omit [LawfulEqOrd κ] [DecidableEq κ] in
theorem ofList_append (l l' : List (κ × ν)) :
    ExtTreeMap.ofList (l ++ l') = (ExtTreeMap.ofList l).insertMany l' := by
  rw [ExtTreeMap.ofList_eq_insertMany_empty, ExtTreeMap.insertMany_append,
    ← ExtTreeMap.ofList_eq_insertMany_empty]

/-- A map with the look-ups of a list of entries is the map of the list. -/
theorem eq_ofList {m : ExtTreeMap κ ν} {l : List (κ × ν)} (h : (l.map Prod.fst).Nodup)
    (hm : ∀ k v, m[k]? = some v ↔ (k, v) ∈ l) : m = ExtTreeMap.ofList l := by
  refine ExtTreeMap.ext_getElem? fun k => Option.ext fun v => ?_
  rw [hm, getElem?_ofList h]

theorem ofList_perm {l l' : List (κ × ν)} (h : (l.map Prod.fst).Nodup) (hp : l.Perm l') :
    ExtTreeMap.ofList l = ExtTreeMap.ofList l' :=
  eq_ofList ((hp.map Prod.fst).nodup_iff.mp h) fun k v => by
    rw [getElem?_ofList h, hp.mem_iff]

theorem ofList_erase {l r : List (κ × ν)} {e : κ × ν} (h : ((l ++ e :: r).map Prod.fst).Nodup) :
    (ExtTreeMap.ofList (l ++ e :: r)).erase e.1 = ExtTreeMap.ofList (l ++ r) := by
  have hp : (l ++ e :: r).Perm (e :: (l ++ r)) := List.perm_middle
  have h' := (hp.map Prod.fst).nodup_iff.mp h
  rw [List.map_cons, List.nodup_cons] at h'
  refine eq_ofList h'.2 fun k v => ?_
  rw [getElem?_erase]
  split_ifs with hk
  · refine ⟨nofun, fun hm => absurd (List.mem_map.mpr ⟨(k, v), hm, hk.symm⟩) h'.1⟩
  · rw [getElem?_ofList h, hp.mem_iff, List.mem_cons]
    exact or_iff_right fun he => hk (congrArg Prod.fst he).symm

theorem ofList_insert {l r : List (κ × ν)} {e : κ × ν} (h : ((l ++ e :: r).map Prod.fst).Nodup) :
    (ExtTreeMap.ofList (l ++ r)).insert e.1 e.2 = ExtTreeMap.ofList (l ++ e :: r) := by
  have hperm : (l ++ e :: r).Perm ((l ++ r) ++ [e]) := by
    rw [List.append_assoc]
    exact (List.perm_append_singleton e r).symm.append_left l
  rw [ofList_perm h hperm, ← ExtTreeMap.insertMany_list_singleton]
  exact (ofList_append (l ++ r) [e]).symm

theorem insertMany_eq_ofList {m : ExtTreeMap κ ν} {l : List (κ × ν)}
    (h : (l.map Prod.fst).Nodup) (hm : ∀ k, m.contains k → k ∈ l.map Prod.fst) :
    m.insertMany l = ExtTreeMap.ofList l := by
  refine eq_ofList h fun k v => ?_
  rw [getElem?_insertMany h]
  refine ⟨fun hk => hk.resolve_right fun ⟨hk, hv⟩ => hk (hm k ?_), .inl⟩
  rw [ExtTreeMap.contains_eq_isSome_getElem?, hv, Option.isSome_some]

theorem values_ofList_perm {l : List (κ × ν)} (h : (l.map Prod.fst).Nodup) :
    (ExtTreeMap.ofList l).values.Perm (l.map Prod.snd) := by
  rw [values_eq_map_toList]
  refine List.Perm.map _ ((List.perm_ext_iff_of_nodup ?_ (h.of_map _)).mpr fun e => ?_)
  · exact (nodup_map_fst_toList _).of_map _
  · obtain ⟨k, v⟩ := e
    rw [ExtTreeMap.mem_toList_iff_getElem?_eq_some, getElem?_ofList h]

end Map

/-! ## Lists side by side -/

namespace Lists

variable {α β γ : Type} {R : α → β → Prop} {as : List α} {bs : List β}

theorem map_eq_of_forall₂ {f : α → γ} {g : β → γ} (h : List.Forall₂ R as bs)
    (hR : ∀ a b, R a b → f a = g b) : as.map f = bs.map g := by
  induction h with
  | nil => rfl
  | cons hab _ ih => rw [List.map_cons, List.map_cons, hR _ _ hab, ih]

theorem exists_of_forall₂ (h : List.Forall₂ R as bs) {b : β} (hb : b ∈ bs) : ∃ a ∈ as, R a b := by
  induction h with
  | nil => cases hb
  | cons hab _ ih =>
    rcases List.mem_cons.mp hb with rfl | hb
    · exact ⟨_, List.mem_cons_self, hab⟩
    · obtain ⟨a, ha, hab⟩ := ih hb
      exact ⟨a, List.mem_cons_of_mem _ ha, hab⟩

theorem forall₂_and {S : α → β → Prop} (h : List.Forall₂ R as bs) (h' : List.Forall₂ S as bs) :
    List.Forall₂ (fun a b => R a b ∧ S a b) as bs :=
  List.Forall₂.mp (fun _ _ h₁ h₂ => ⟨h₁, h₂⟩) h h'

theorem exists_forall₂ (h : ∀ a ∈ as, ∃ b, R a b) : ∃ bs, List.Forall₂ R as bs := by
  induction as with
  | nil => exact ⟨[], .nil⟩
  | cons a as ih =>
    obtain ⟨b, hb⟩ := h a List.mem_cons_self
    obtain ⟨bs, hbs⟩ := ih fun a' ha' => h a' (List.mem_cons_of_mem a ha')
    exact ⟨b :: bs, .cons hb hbs⟩

theorem exists_map_of_perm {f : α → β} {m : List α} (h : bs.Perm (m.map f)) :
    ∃ l : List α, bs = l.map f ∧ l.Perm m :=
  Eq.mpr (congrFun (congrFun (List.eq_map_comp_perm f) bs) m) h

theorem find?_of_nodup [DecidableEq β] {g : α → β} {l : List α} (h : (l.map g).Nodup) {a : α}
    (ha : a ∈ l) : l.find? (fun x => g x = g a) = some a := by
  cases hf : l.find? (fun x => g x = g a) with
  | none => exact absurd (decide_eq_true rfl) (List.find?_eq_none.mp hf a ha)
  | some b =>
    have hb : g b = g a := of_decide_eq_true (List.find?_some hf :)
    rw [List.inj_on_of_nodup_map h (List.mem_of_find?_eq_some hf) ha hb]

/-- Lists without repetitions that have at most one element, and the same one. -/
theorem eq_of_mem_iff {l m : List α} (hl : l.Nodup) (hm : m.Nodup)
    (hone : ∀ a ∈ l, ∀ b ∈ l, a = b) (h : ∀ a, a ∈ l ↔ a ∈ m) : l = m := by
  have hperm : l.Perm m := (List.perm_ext_iff_of_nodup hl hm).mpr h
  match l with
  | [] => exact hperm.nil_eq
  | [a] => exact (List.perm_singleton.mp hperm.symm).symm
  | a :: b :: l =>
    have hab : a = b := hone a List.mem_cons_self b (List.mem_cons_of_mem a List.mem_cons_self)
    rw [hab, List.nodup_cons] at hl
    exact absurd List.mem_cons_self hl.1

theorem flatMap_sublist {f g : α → List β} {l : List α} (h : ∀ a ∈ l, (f a).Sublist (g a)) :
    (l.flatMap f).Sublist (l.flatMap g) := by
  induction l with
  | nil => exact .refl _
  | cons a l ih =>
    rw [List.forall_mem_cons] at h
    rw [List.flatMap_cons, List.flatMap_cons]
    exact h.1.append (ih h.2)

theorem sorted_perm {l : List Nat} (h : l.Nodup) : (ExtTreeSet.ofList l).toList.Perm l := by
  have hd : (ExtTreeSet.ofList l).toList.Nodup :=
    ExtTreeSet.distinct_toList.imp fun hne e => hne (LawfulEqOrd.compare_eq_iff_eq.mpr e)
  refine (List.perm_ext_iff_of_nodup hd h).mpr fun k => ?_
  rw [ExtTreeSet.mem_toList, ExtTreeSet.mem_ofList, List.contains_iff_mem]

theorem eraseIdx_middle (l r : List α) (a : α) : (l ++ a :: r).eraseIdx l.length = l ++ r := by
  rw [List.eraseIdx_append_of_length_le (Nat.le_refl _), Nat.sub_self, List.eraseIdx_cons_zero]

end Lists

end RuleMonitor
