import RuleMonitor.Evaluation.Explanation
import RuleMonitor.Proofs.Collections

/-!
# Links under renaming

A context that takes the place of another one is renamed in all links. Renaming commutes with all that
links are made with, so that the renamed links of a node are those made of the renamed links below it.

* `Link.rename_merge`, `Link.rename_bind`: renaming single links.
* `LinkSet.rename_product`, `LinkSet.rename_union`, `LinkSet.rename_flipped`,
  `LinkSet.rename_withBinding`: renaming sets of links.
* **`Connective.rename_explain`**: renaming the links of a connective.
-/

namespace RuleMonitor

open Std (ExtTreeMap ExtTreeSet)

/-- The identity `new` in the place of `old`. -/
def renameId (old new id : Nat) : Nat :=
  if id = old then new else id

namespace Link

variable {l m : Link} {v w : String} {old new id : Nat}

theorem ext_bindings (hk : l.kind = m.kind) (hb : ∀ w : String, l.bindings[w]? = m.bindings[w]?) :
    l = m := by
  obtain ⟨k, b⟩ := l
  obtain ⟨k', b'⟩ := m
  cases hk
  exact congrArg (Link.mk k) (ExtTreeMap.ext_getElem? fun {w} => hb w)

theorem kind_rename (l : Link) (v : String) (old new : Nat) : (l.rename v old new).kind = l.kind := by
  unfold rename
  split <;> rfl

/-- **What a renamed link binds.** -/
theorem getElem?_rename (l : Link) (v w : String) (old new : Nat) :
    (l.rename v old new).bindings[w]? =
      if v = w then (l.bindings[w]?).map (renameId old new) else l.bindings[w]? := by
  unfold rename
  split_ifs with h hv hv
  · subst hv
    rw [Map.getElem?_insert, if_pos rfl, h, Option.map_some, renameId, if_pos rfl]
  · rw [Map.getElem?_insert, if_neg hv]
  · subst hv
    cases hl : l.bindings[v]? with
    | none => rfl
    | some id =>
      have hid : id ≠ old := fun e => h (hl.trans (congrArg some e))
      rw [Option.map_some, renameId, if_neg hid]
  · rfl

theorem getElem?_merge (l m : Link) (w : String) :
    (l.merge m).bindings[w]? = (m.bindings[w]?).or l.bindings[w]? := by
  have hmerge : (l.merge m).bindings = l.bindings.insertMany m.bindings.toList := by
    rw [ExtTreeMap.insertMany_list_eq_foldl]
    rfl
  have hnd := Map.nodup_map_fst_toList m.bindings
  rw [hmerge]
  cases hm : m.bindings[w]? with
  | some id =>
    exact (Map.getElem?_insertMany hnd).mpr (.inl (ExtTreeMap.mem_toList_iff_getElem?_eq_some.mpr hm))
  | none =>
    have hw : w ∉ m.bindings.toList.map Prod.fst := by
      rw [List.mem_map]
      rintro ⟨⟨w', id⟩, he, rfl⟩
      rw [ExtTreeMap.mem_toList_iff_getElem?_eq_some, hm] at he
      cases he
    cases hl : l.bindings[w]? with
    | some id => exact (Map.getElem?_insertMany hnd).mpr (.inr ⟨hw, hl⟩)
    | none => exact (Map.getElem?_insertMany_eq_none hnd).mpr ⟨hw, hl⟩

theorem rename_merge (l m : Link) (v : String) (old new : Nat) :
    (l.merge m).rename v old new = (l.rename v old new).merge (m.rename v old new) := by
  refine ext_bindings ?_ fun w => ?_
  · rw [kind_rename]
    exact (kind_rename l v old new).symm
  · rw [getElem?_rename, getElem?_merge, getElem?_merge, getElem?_rename, getElem?_rename]
    split_ifs
    · cases m.bindings[w]? <;> rfl
    · rfl

theorem getElem?_bind (l : Link) (k : LinkKind) (v w : String) (id : Nat) :
    (l.bind k v id).bindings[w]? = if v = w then some id else l.bindings[w]? :=
  Map.getElem?_insert _ _ _ _

/-- Renaming a link with one more binding, of the variable or of another one. -/
theorem rename_bind (l : Link) (k : LinkKind) (v w : String) (old new id : Nat) :
    (l.bind k w id).rename v old new = (l.rename v old new).bind k w
      (if v = w then renameId old new id else id) := by
  refine ext_bindings (kind_rename _ v old new) fun x => ?_
  rw [getElem?_rename, getElem?_bind, getElem?_bind, getElem?_rename]
  by_cases hv : v = x <;> by_cases hw : w = x
  · subst hv
    rw [if_pos rfl, if_pos hw, if_pos hw, if_pos hw.symm, Option.map_some]
  · rw [if_pos hv, if_neg hw, if_neg hw, if_pos hv]
  · subst hw
    rw [if_neg hv, if_pos rfl, if_pos rfl, if_neg hv]
  · rw [if_neg hv, if_neg hw, if_neg hw, if_neg hv]

theorem rename_self (l : Link) (v : String) (id : Nat) : l.rename v id id = l := by
  have hsame : ∀ i, renameId id id i = i := fun i => by
    unfold renameId
    split_ifs with h
    · exact h.symm
    · rfl
  refine ext_bindings (kind_rename l v id id) fun w => ?_
  rw [getElem?_rename]
  split_ifs
  · cases l.bindings[w]? with
    | none => rfl
    | some i => rw [Option.map_some, hsame]
  · rfl

theorem rename_of_unbound (h : l.bindings[v]? = none) : l.rename v old new = l := by
  unfold rename
  rw [h, if_neg nofun]

end Link

namespace LinkSet

variable {s t : LinkSet} {v w : String} {old new : Nat} {l : Link}

theorem mem_image {f : Link → Link} : l ∈ s.image f ↔ ∃ l₀ ∈ s, f l₀ = l := by
  unfold image
  rw [ExtTreeSet.mem_ofList, List.contains_iff_mem, List.mem_map]
  simp only [ExtTreeSet.mem_toList]

theorem mem_rename : l ∈ s.rename v old new ↔ ∃ l₀ ∈ s, l₀.rename v old new = l :=
  mem_image

theorem ext_mem (h : ∀ l, l ∈ s ↔ l ∈ t) : s = t :=
  ExtTreeSet.ext_mem fun {l} => h l

theorem mem_of_mem_minimal (h : l ∈ s.minimal) : l ∈ s :=
  ExtTreeSet.mem_toList.mp (List.mem_filter.mp h).1

theorem rename_empty (v : String) (old new : Nat) : (∅ : LinkSet).rename v old new = ∅ := by
  refine ext_mem fun l => ?_
  rw [mem_rename]
  exact ⟨fun ⟨_, h, _⟩ => absurd h ExtTreeSet.not_mem_empty, fun h => absurd h ExtTreeSet.not_mem_empty⟩

theorem rename_eq_empty : s.rename v old new = ∅ ↔ s = ∅ := by
  constructor
  · intro h
    refine ext_mem fun l => ⟨fun hl => ?_, fun hl => absurd hl ExtTreeSet.not_mem_empty⟩
    have hm : l.rename v old new ∈ s.rename v old new := mem_rename.mpr ⟨l, hl, rfl⟩
    rw [h] at hm
    exact absurd hm ExtTreeSet.not_mem_empty
  · rintro rfl
    exact rename_empty v old new

theorem isEmpty_rename (s : LinkSet) (v : String) (old new : Nat) :
    (s.rename v old new).isEmpty = s.isEmpty := by
  rw [Bool.eq_iff_iff, ExtTreeSet.isEmpty_iff, ExtTreeSet.isEmpty_iff, rename_eq_empty]

theorem mem_product (hs : s.isEmpty = false) (ht : t.isEmpty = false) :
    l ∈ s.product t ↔ ∃ a ∈ s, ∃ b ∈ t, a.merge b = l := by
  unfold product
  rw [hs, ht, if_neg Bool.false_ne_true, if_neg Bool.false_ne_true, ExtTreeSet.mem_ofList,
    List.contains_iff_mem, List.mem_flatMap]
  simp only [ExtTreeSet.mem_toList, List.mem_map]

theorem rename_product (s t : LinkSet) (v : String) (old new : Nat) :
    (s.product t).rename v old new = (s.rename v old new).product (t.rename v old new) := by
  cases hs : s.isEmpty with
  | true =>
    obtain rfl := ExtTreeSet.isEmpty_iff.mp hs
    rw [rename_empty]
    rfl
  | false =>
    cases ht : t.isEmpty with
    | true =>
      obtain rfl := ExtTreeSet.isEmpty_iff.mp ht
      unfold product
      rw [isEmpty_rename, isEmpty_rename, hs, ht]
      rfl
    | false =>
      refine ext_mem fun l => ?_
      rw [mem_rename, mem_product (by rwa [isEmpty_rename]) (by rwa [isEmpty_rename])]
      constructor
      · rintro ⟨_, hl, rfl⟩
        obtain ⟨a, ha, b, hb, rfl⟩ := (mem_product hs ht).mp hl
        exact ⟨_, mem_rename.mpr ⟨a, ha, rfl⟩, _, mem_rename.mpr ⟨b, hb, rfl⟩,
          (Link.rename_merge a b v old new).symm⟩
      · rintro ⟨_, ha', _, hb', rfl⟩
        obtain ⟨a, ha, rfl⟩ := mem_rename.mp ha'
        obtain ⟨b, hb, rfl⟩ := mem_rename.mp hb'
        exact ⟨_, (mem_product hs ht).mpr ⟨a, ha, b, hb, rfl⟩, Link.rename_merge a b v old new⟩

theorem rename_union (s t : LinkSet) (v : String) (old new : Nat) :
    (s ∪ t : LinkSet).rename v old new = s.rename v old new ∪ t.rename v old new := by
  refine ext_mem fun l => ?_
  rw [ExtTreeSet.mem_union_iff, mem_rename, mem_rename, mem_rename]
  simp only [ExtTreeSet.mem_union_iff, or_and_right, exists_or]

theorem rename_image {f g : Link → Link}
    (h : ∀ l : Link, (f l).rename v old new = g (l.rename v old new)) (s : LinkSet) :
    (s.image f).rename v old new = (s.rename v old new).image g := by
  refine ext_mem fun l => ?_
  rw [mem_rename, mem_image]
  constructor
  · rintro ⟨_, hl, rfl⟩
    obtain ⟨l₀, hl₀, rfl⟩ := mem_image.mp hl
    exact ⟨_, mem_rename.mpr ⟨l₀, hl₀, rfl⟩, (h l₀).symm⟩
  · rintro ⟨_, hl, rfl⟩
    obtain ⟨l₀, hl₀, rfl⟩ := mem_rename.mp hl
    exact ⟨_, mem_image.mpr ⟨l₀, hl₀, rfl⟩, h l₀⟩

theorem rename_flipped (s : LinkSet) (v : String) (old new : Nat) :
    s.flipped.rename v old new = (s.rename v old new).flipped :=
  rename_image (fun l => by unfold Link.rename; split <;> rfl) s

theorem rename_withBinding (s : LinkSet) (k : LinkKind) (v w : String) (old new id : Nat) :
    (s.withBinding k w id).rename v old new = (s.rename v old new).withBinding k w
      (if v = w then renameId old new id else id) := by
  unfold withBinding
  rw [isEmpty_rename]
  split
  · refine ext_mem fun l => ?_
    have hbind := Link.rename_bind ⟨k, ∅⟩ k v w old new id
    rw [Link.rename_of_unbound (l := ⟨k, ∅⟩) ExtTreeMap.getElem?_empty] at hbind
    rw [mem_rename, ExtTreeSet.mem_ofList, List.contains_iff_mem, List.mem_singleton]
    simp only [ExtTreeSet.mem_ofList, List.contains_iff_mem, List.mem_singleton, exists_eq_left]
    rw [eq_comm]
    exact Eq.congr_right hbind
  · exact rename_image (fun l => Link.rename_bind l k v w old new id) s

theorem rename_self (s : LinkSet) (v : String) (id : Nat) : s.rename v id id = s := by
  refine ext_mem fun l => ?_
  rw [mem_rename]
  constructor
  · rintro ⟨l₀, hl₀, rfl⟩
    rwa [Link.rename_self]
  · exact fun hl => ⟨l, hl, Link.rename_self l v id⟩

end LinkSet

/-- **Renaming the links of a connective.** -/
theorem Connective.rename_explain (op : Connective) (t a b : Bool) (l m : LinkSet) (v : String)
    (old new : Nat) : (op.explain t a b l m).rename v old new =
      op.explain t a b (l.rename v old new) (m.rename v old new) := by
  have hfirst : (op.firstLinks l).rename v old new = op.firstLinks (l.rename v old new) := by
    unfold firstLinks
    split
    · exact LinkSet.rename_flipped l v old new
    · rfl
  have hif : ∀ (x : Bool) (s : LinkSet), (if x = true then s else ∅).rename v old new =
      if x = true then s.rename v old new else ∅ := by
    intro x s
    cases x with
    | true => rfl
    | false => exact LinkSet.rename_empty v old new
  unfold explain
  simp only
  split
  · rw [LinkSet.rename_product, hfirst]
  · rw [LinkSet.rename_union, hif, hif, hfirst]

end RuleMonitor
