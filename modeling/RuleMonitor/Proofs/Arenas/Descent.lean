import RuleMonitor.Proofs.Instances.Rebinds
import RuleMonitor.Proofs.Instances.Surviving

/-!
# Properties of nodes where they stand

What a slot holds of a node depends on its cell, on the slot of the node above and on the slots of its
branches, and on nothing else of the tree. A property of this kind can be checked node by node, and a
change of a single node matters to this node and to those below it alone.

* `Node.Everywhere`: a property of every node where it stands; `Node.everywhere_mk`.
* **`Node.Everywhere.update?`**: it carries over to a tree that was changed at the end of a way.
* `Node.Everywhere.map`: it carries over to a tree of which all cells were changed.
* `Node.exists_way`: the way to a slot; `Node.lineage?_of_follow?`: its lineage.
-/

namespace RuleMonitor

namespace Node

variable {P Q : Option Nat → Cell → List Nat → Prop} {above : Option Nat} {n n' m kid : Node} {c : Cell}
  {kids : List Node} {f : Node → Node} {way : List Nat} {i : Nat}

/-! ## Every node -/

theorem descentAll_eq (i : Nat) (kids : List Node) :
    descentAll i kids = kids.flatMap (descent (some i)) := by
  induction kids with
  | nil => rfl
  | cons kid kids ih => rw [descentAll, ih, List.flatMap_cons]

theorem descent_mk (above : Option Nat) (c : Cell) (kids : List Node) :
    (mk c kids).descent above = (above, mk c kids) :: kids.flatMap (descent (some c.index)) := by
  rw [descent, descentAll_eq]

theorem map_snd_descent (n : Node) : ∀ above : Option Nat, (n.descent above).map Prod.snd = n.subtrees := by
  induction n using induct with
  | mk c kids ih =>
    intro above
    rw [descent_mk, subtrees_mk, List.map_cons, List.map_flatMap]
    exact congrArg _ (List.flatMap_congr fun kid hk => ih kid hk _)

theorem self_mem_descent (above : Option Nat) (n : Node) : (above, n) ∈ n.descent above := by
  obtain ⟨c, kids⟩ := n
  rw [descent_mk]
  exact List.mem_cons_self

theorem mem_subtrees_of_mem_descent {p : Option Nat} (hm : (p, m) ∈ n.descent above) :
    m ∈ n.subtrees := by
  rw [← map_snd_descent n above]
  exact List.mem_map_of_mem hm

theorem exists_mem_descent (hi : i ∈ n.indices) (above : Option Nat) :
    ∃ p m, (p, m) ∈ n.descent above ∧ m.index = i := by
  obtain ⟨m, hm, hmi⟩ := exists_of_mem_indices hi
  rw [← map_snd_descent n above] at hm
  obtain ⟨e, he, rfl⟩ := List.mem_map.mp hm
  exact ⟨e.1, e.2, he, hmi⟩

theorem kid_mem_descent {p : Option Nat} (hm : (p, m) ∈ n.descent above) (hk : kid ∈ m.kids) :
    (some m.index, kid) ∈ n.descent above := by
  induction n using induct generalizing above with
  | mk c kids ih =>
    rw [descent_mk, List.mem_cons, List.mem_flatMap] at hm ⊢
    rcases hm with hm | ⟨k, hk', hm⟩
    · cases hm
      exact .inr ⟨kid, hk, self_mem_descent _ _⟩
    · exact .inr ⟨k, hk', ih k hk' hm⟩

/-- A node that stands below the slot of another one is a branch of it. -/
theorem exists_above_of_mem_descent {p : Option Nat} (hm : (p, m) ∈ n.descent above) :
    p = above ∧ m = n ∨ ∃ x q, (x, q) ∈ n.descent above ∧ p = some q.index ∧ m ∈ q.kids := by
  induction n using induct generalizing above with
  | mk c kids ih =>
    rw [descent_mk, List.mem_cons, List.mem_flatMap] at hm
    rcases hm with hm | ⟨k, hk, hm⟩
    · cases hm
      exact .inl ⟨rfl, rfl⟩
    · right
      rcases ih k hk hm with ⟨rfl, rfl⟩ | ⟨x, q, hq, hp, hmq⟩
      · exact ⟨above, mk c kids, self_mem_descent _ _, rfl, hk⟩
      · refine ⟨x, q, ?_, hp, hmq⟩
        rw [descent_mk]
        exact List.mem_cons_of_mem _ (List.mem_flatMap.mpr ⟨k, hk, hq⟩)

/-- A property of every node, of the slot of the node above, the cell, and the slots of the branches. -/
def Everywhere (P : Option Nat → Cell → List Nat → Prop) (above : Option Nat) (n : Node) : Prop :=
  ∀ e ∈ n.descent above, P e.1 e.2.cell (e.2.kids.map index)

theorem everywhere_mk : Everywhere P above (mk c kids) ↔
    P above c (kids.map index) ∧ ∀ kid ∈ kids, Everywhere P (some c.index) kid := by
  simp only [Everywhere, descent_mk, List.forall_mem_cons, List.mem_flatMap, cell_mk, kids_mk]
  exact and_congr_right fun _ =>
    ⟨fun h kid hk e he => h e ⟨kid, hk, he⟩, fun h e ⟨kid, hk, he⟩ => h kid hk e he⟩

theorem Everywhere.root (h : Everywhere P above n) : P above n.cell (n.kids.map index) := by
  obtain ⟨c, kids⟩ := n
  exact (everywhere_mk.mp h).1

theorem Everywhere.imp (h : Everywhere P above n) (hpq : ∀ p c ks, c ∈ n.cells → P p c ks → Q p c ks) :
    Everywhere Q above n := by
  intro e he
  exact hpq _ _ _ (cell_mem_cells_of_mem (mem_subtrees_of_mem_descent he)) (h e he)

theorem Everywhere.of_mem_descent {p : Option Nat} (h : Everywhere P above n)
    (hm : (p, m) ∈ n.descent above) : Everywhere P p m := by
  induction n using induct generalizing above with
  | mk c kids ih =>
    rw [descent_mk, List.mem_cons, List.mem_flatMap] at hm
    rcases hm with hm | ⟨kid, hk, hm⟩
    · cases hm
      exact h
    · exact ih kid hk ((everywhere_mk.mp h).2 kid hk) hm

theorem Everywhere.of_mem_subtrees (h : Everywhere P above n) (hm : m ∈ n.subtrees) :
    ∃ p, Everywhere P p m := by
  rw [← map_snd_descent n above] at hm
  obtain ⟨e, he, rfl⟩ := List.mem_map.mp hm
  exact ⟨e.1, h.of_mem_descent he⟩

theorem Everywhere.map {h : Cell → Cell} {place : Nat → Nat} (hP : Everywhere P above n)
    (hplace : ∀ c, (h c).index = place c.index)
    (hpq : ∀ p c ks, c ∈ n.cells → P p c ks → Q (p.map place) (h c) (ks.map place)) :
    Everywhere Q (above.map place) (n.map h) := by
  have hindex : ∀ k : Node, (k.map h).index = place k.index := fun k => by
    unfold index
    rw [cell_map, hplace]
  induction n using induct generalizing above with
  | mk c kids ih =>
    obtain ⟨hc, hkids⟩ := everywhere_mk.mp hP
    rw [map_mk, everywhere_mk, List.map_map, List.forall_mem_map]
    constructor
    · have hcell := hpq _ _ _ (cell_mem_cells _) hc
      rwa [List.map_map, show place ∘ index = index ∘ Node.map h from funext fun k => (hindex k).symm] at hcell
    · intro kid hk
      rw [hplace]
      exact ih kid hk (hkids kid hk) fun p c' ks hc' =>
        hpq p c' ks (mem_cells_of_mem_kids (n := mk c kids) hk hc')

theorem Everywhere.onCells {h : Cell → Cell} (hP : Everywhere P above n)
    (hindex : ∀ c, (h c).index = c.index) (hpq : ∀ p c ks, c ∈ n.cells → P p c ks → Q p (h c) ks) :
    Everywhere Q above (n.map h) := by
  have hmap : Everywhere Q (above.map id) (n.map h) := hP.map hindex fun p c ks hc hpc => by
    rw [Option.map_id, List.map_id]
    exact hpq p c ks hc hpc
  rwa [Option.map_id] at hmap

theorem index_onCell {h : Cell → Cell} (hindex : ∀ c, (h c).index = c.index) (n : Node) :
    (n.onCell h).index = n.index := by
  obtain ⟨c, kids⟩ := n
  exact hindex c

theorem indices_onCell {h : Cell → Cell} (hindex : ∀ c, (h c).index = c.index) (n : Node) :
    (n.onCell h).indices = n.indices := by
  obtain ⟨c, kids⟩ := n
  rw [onCell, indices_mk, indices_mk, hindex]

theorem Everywhere.onCell {h : Cell → Cell} (hP : Everywhere P above n) (hd : n.indices.Nodup)
    (hindex : ∀ c, (h c).index = c.index)
    (hroot : Q above (h n.cell) (n.kids.map index))
    (hpq : ∀ p c ks, c.index ≠ n.index → P p c ks → Q p c ks) : Everywhere Q above (n.onCell h) := by
  obtain ⟨c, kids⟩ := n
  obtain ⟨-, hkids⟩ := everywhere_mk.mp hP
  refine everywhere_mk.mpr ⟨hroot, fun kid hk => ?_⟩
  rw [hindex]
  refine (hkids kid hk).imp fun p c' ks hc' => hpq p c' ks fun e => ?_
  exact index_notMem_kid hd hk (e ▸ List.mem_map_of_mem hc')

theorem slotsAll_perm (kids : List Node) : (slotsAll kids).Perm (kids.flatMap indices) := by
  induction kids with
  | nil => exact .refl _
  | cons kid kids ih =>
    rw [slotsAll, List.flatMap_cons]
    exact List.perm_append_comm.trans (kid.slots_perm.append ih)

/-! ## The end of a way -/

theorem mem_of_follow? (hm : n.follow? way = some m) : m ∈ n.subtrees := by
  induction way generalizing n with
  | nil =>
    cases hm
    exact mem_subtrees_self _
  | cons i way ih =>
    obtain ⟨c, kids⟩ := n
    rw [follow?] at hm
    obtain ⟨kid, hk, hm⟩ := Option.bind_eq_some_iff.mp hm
    exact mem_subtrees_of_mem_kids (n := mk c kids) (List.mem_of_find?_eq_some hk) (ih hm)

theorem index_update? (hf : ∀ m, n.follow? way = some m → (f m).index = m.index)
    (hu : n.update? f way = some n') : n'.index = n.index := by
  cases way with
  | nil =>
    cases hu
    exact hf n rfl
  | cons i way =>
    obtain ⟨c, kids⟩ := n
    obtain ⟨l, kid, r, kid', -, -, -, -, rfl⟩ := exists_of_update?_cons hu
    rfl

/-- The nodes on the way to a node that is changed stay in their slots. -/
theorem exists_follow?_of_update? {way' : List Nat} (hf : ∀ m, (f m).index = m.index)
    (hu : n.update? f (way ++ way') = some n') (hm : n.follow? way = some m) :
    ∃ m', n'.follow? way = some m' ∧ m'.index = m.index := by
  induction way generalizing n n' with
  | nil =>
    cases hm
    exact ⟨n', rfl, index_update? (fun k _ => hf k) hu⟩
  | cons i way ih =>
    obtain ⟨c, kids⟩ := n
    obtain ⟨l, kid, r, kid', rfl, rfl, hl, hkid, rfl⟩ := exists_of_update?_cons hu
    rw [follow?, Tree.find?_append hl, Option.bind_some] at hm
    obtain ⟨m', hm', hindex⟩ := ih hkid hm
    have hslot : kid'.index = kid.index := index_update? (fun k _ => hf k) hkid
    refine ⟨m', ?_, hindex⟩
    rw [follow?, ← hslot, Tree.find?_append (hslot ▸ hl), Option.bind_some, hm']

/-- **A change at the end of a way** matters to the nodes from there on. -/
theorem Everywhere.update? (h : Everywhere P above n) (hd : n.indices.Nodup)
    (hu : n.update? f way = some n') (hm : n.follow? way = some m) (hindex : (f m).index = m.index)
    (hf : ∀ p, Everywhere P p m → Everywhere Q p (f m))
    (hpq : ∀ p c ks, c ∈ n.cells → c.index ∉ m.indices → P p c ks → Q p c ks) :
    Everywhere Q above n' := by
  induction way generalizing n n' above with
  | nil =>
    cases hm
    cases hu
    exact hf above h
  | cons i way ih =>
    obtain ⟨c, kids⟩ := n
    obtain ⟨l, kid, r, kid', rfl, rfl, hl, hkid, rfl⟩ := exists_of_update?_cons hu
    rw [follow?, Tree.find?_append hl, Option.bind_some] at hm
    have hmem : kid ∈ l ++ kid :: r := List.mem_append_right _ List.mem_cons_self
    have hsub : m.indices ⊆ kid.indices := indices_subset_of_mem (mem_of_follow? hm)
    obtain ⟨hc, hkids⟩ := everywhere_mk.mp h
    have hkid' : Everywhere Q (some c.index) kid' :=
      ih (hkids kid hmem) (nodup_indices_kid hd hmem) hkid hm fun p c' ks hc' =>
        hpq p c' ks (mem_cells_of_mem_kids (n := mk c (l ++ kid :: r)) hmem hc')
    have hslot : kid'.index = kid.index := index_update? (fun m' hm' => by
      cases hm.symm.trans hm'
      exact hindex) hkid
    have hother : ∀ k ∈ l ++ r, Everywhere Q (some c.index) k := by
      intro k hk
      have hk' : k ∈ l ++ kid :: r := by
        rw [List.mem_append] at hk ⊢
        exact hk.imp_right (List.mem_cons_of_mem _)
      refine (hkids k hk').imp fun p c' ks hc' =>
        hpq p c' ks (mem_cells_of_mem_kids (n := mk c (l ++ kid :: r)) hk' hc') fun hi => ?_
      exact (Formula.separate hd (hsub hi)).2 k hk (List.mem_map_of_mem hc')
    rw [everywhere_mk]
    constructor
    · have hnot : c.index ∉ m.indices := fun hi => index_notMem_kid hd hmem (hsub hi)
      have hroot := hpq _ _ _ (cell_mem_cells _) hnot hc
      rwa [List.map_append, List.map_cons, ← hslot, ← List.map_cons, ← List.map_append] at hroot
    · intro k hk
      rcases List.mem_append.mp hk with hk | hk
      · exact hother k (List.mem_append_left _ hk)
      · rcases List.mem_cons.mp hk with rfl | hk
        · exact hkid'
        · exact hother k (List.mem_append_right _ hk)

theorem index_ne_of_nodup {l r : List Node} (hd : (mk c (l ++ kid :: r)).indices.Nodup) :
    ∀ k ∈ l, k.index ≠ kid.index := fun k hk e =>
  (Formula.separate hd kid.index_mem_indices).2 k (List.mem_append_left _ hk) (e ▸ k.index_mem_indices)

theorem exists_follow?_of_mem (hd : n.indices.Nodup) (hm : m ∈ n.subtrees) :
    ∃ way, n.follow? way = some m := by
  induction n using induct with
  | mk c kids ih =>
    rw [subtrees_mk, List.mem_cons, List.mem_flatMap] at hm
    rcases hm with rfl | ⟨kid, hk, hm⟩
    · exact ⟨[], rfl⟩
    · obtain ⟨way, hway⟩ := ih kid hk (nodup_indices_kid hd hk) hm
      obtain ⟨l, r, rfl⟩ := List.append_of_mem hk
      refine ⟨kid.index :: way, ?_⟩
      rw [follow?, Tree.find?_append (index_ne_of_nodup hd), Option.bind_some, hway]

/-- **The lineage of a slot** is the way to its node, read backwards. -/
theorem lineage?_of_follow? (hd : n.indices.Nodup) (hm : n.follow? way = some m) : ∀ above,
    n.lineage? m.index above = some ((n.index :: way).reverse ++ above) := by
  induction way generalizing n with
  | nil =>
    intro above
    obtain rfl : n = m := Option.some.inj hm
    obtain ⟨c, kids⟩ := n
    rw [lineage?_mk]
    exact if_pos rfl
  | cons i way ih =>
    intro above
    obtain ⟨c, kids⟩ := n
    rw [follow?] at hm
    obtain ⟨kid, hkid, hway⟩ := Option.bind_eq_some_iff.mp hm
    obtain ⟨l, r, rfl, rfl, -⟩ := exists_of_find? hkid
    have hmem : kid ∈ l ++ kid :: r := List.mem_append_right _ List.mem_cons_self
    have hi : m.index ∈ kid.indices := index_mem_of_mem (mem_of_follow? hway)
    have hc : c.index ≠ m.index := fun e => index_notMem_kid hd hmem (Eq.subst e.symm hi)
    have hnone : l.findSome? (lineage? m.index (c.index :: above)) = none :=
      List.findSome?_eq_none_iff.mpr fun k hk =>
        lineage?_eq_none k _ ((Formula.separate hd hi).2 k (List.mem_append_left _ hk))
    rw [lineage?_mk, if_neg hc, List.findSome?_append, hnone, List.findSome?_cons,
      ih (nodup_indices_kid hd hmem) hway, Option.none_or]
    simp

/-- **The way to a slot.** -/
theorem exists_way (hd : n.indices.Nodup) (hi : i ∈ n.indices) :
    ∃ way m, n.follow? way = some m ∧ m.index = i := by
  obtain ⟨m, hm, rfl⟩ := exists_of_mem_indices hi
  obtain ⟨way, hway⟩ := exists_follow?_of_mem hd hm
  exact ⟨way, m, hway, rfl⟩

end Node

end RuleMonitor
