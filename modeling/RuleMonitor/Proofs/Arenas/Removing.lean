import RuleMonitor.Proofs.Arenas.Holding

/-!
# Removing a subtree

A removal takes the node out of the branches of the node above, or leaves the arena without a root, and
then frees the slots from the node on.

* `Arena.remove_of_root`, `Arena.remove_of_parent`: what comes before slots are freed.
* **`Arena.Holds.remove_root`**, **`Arena.Holds.remove_branch`**: the arena after a removal.
* **`Arena.simulates_remove`**: removals from arenas and from instantiations.
-/

namespace RuleMonitor

open Std (ExtTreeMap ExtTreeSet)

theorem Cell.forget_record (c : Cell) (parent : Option Nat) (kids : List Nat) (position : Nat)
    (bound : Option Nat) : (c.record parent kids).forget position bound =
      (c.forget kids.length position bound).record parent (kids.eraseIdx position) :=
  rfl

namespace Tree

variable {t t₁ : Tree} {m : Node} {above : List Nat}

theorem indices_prune (ha : above ≠ []) (hm : t.atLineage? (m.index :: above) = some m)
    (hu : t.update? above (Node.prune m.index) = some t₁) :
    t.indices.Perm (m.indices ++ t₁.indices) := by
  obtain ⟨n, ht⟩ := exists_root_of_update? hu
  obtain ⟨way, n', hway, hn', rfl⟩ := exists_of_update? hu ht
  obtain ⟨p, rest, hp, h, h'⟩ := Node.indices_of_update? hn'
  have hbranch := follow?_of_atLineage? ha hm (hway.trans hp)
  rw [indices_of_root ht, indices_of_root (t := { t with root := some n' }) rfl]
  refine h.trans (((Node.indices_prune hbranch).append_right rest).trans ?_)
  rw [List.append_assoc]
  exact h'.symm.append_left _

theorem remove_root (ht : t.root = some m) (hlineage : Tree.lineage m.index t = .ok [m.index] t) :
    Tree.remove m.index t = .ok ⟨⟩ (freed { t with root := none } m.slots) := by
  unfold Tree.remove
  rw [Routine.bind_ok hlineage, removeAt, Routine.get_bind, atLineage?_root ht]
  rfl

end Tree

namespace Arena

variable {s : Sentence} {a a₁ a' : Arena} {t t₁ t' : Tree} {n m q : Node} {i position : Nat} {above : List Nat}
  {r r' : Record} {freed : List Nat}

theorem remove_of_root (hr : a.node? i = some r) (hparent : r.parent = none) :
    remove s i a = release s [i] { a with root := none } := by
  unfold remove
  rw [Routine.get_bind, Routine.bind_ok (Routine.ofExcept_ok (node_ok hr) a), hparent]
  rfl

theorem remove_of_parent {parent : Nat} (hr : a.node? i = some r) (hparent : r.parent = some parent)
    (hr' : a.node? parent = some r') (hposition : r'.kids.findIdx? (· = i) = some position) :
    remove s i a = release s [i] (a.amend parent (·.forget position r.bound)) := by
  unfold remove
  rw [Routine.get_bind, Routine.bind_ok (Routine.ofExcept_ok (node_ok hr) a), hparent]
  simp only
  rw [Routine.bind_ok (Routine.ofExcept_ok (node_ok hr') a), hposition]
  exact Routine.bind_ok (alter_ok hr')

theorem remove_error (h : a.node? i = none) (s : Sentence) : remove s i a = .error (Tree.notLive i) a := by
  unfold remove
  rw [Routine.get_bind, Routine.bind_error (Routine.ofExcept_error (node_error h) a)]

theorem Holds.free_slots (h : Holds s a t) (hfreed : Emptied a₁ a' freed)
    (hperm : t.indices.Perm (freed ++ t₁.indices)) (htree : ∃ root, t₁ = { t with root })
    (hroot : a₁.root = t₁.root.map Node.index) (hlength : a₁.nodes.length = a.nodes.length)
    (hfree : a₁.free = a.free) (hwas : a₁.wasSubstantial = a.wasSubstantial)
    (hnow : a₁.substantial = a.substantial) (hsame : ∀ j, j ∉ t.indices → a.Same a₁ j)
    (hnodes : ∀ n, t₁.root = some n → n.Everywhere (a'.Has s) none) : Holds s a' (t₁.freed freed) := by
  obtain ⟨root, rfl⟩ := htree
  have hmem : ∀ {i}, i ∈ t.indices → i ∉ freed → i ∈ Tree.indices { t with root } := fun hi hnot =>
    (List.mem_append.mp (hperm.subset hi)).resolve_left hnot
  refine ⟨⟨hfreed.root.trans hroot, hfreed.length.trans (hlength.trans h.length), ?_, hnodes,
    fun i hi => ?_, ?_⟩, ?_, ?_, fun i hi => ?_⟩
  · rw [hfreed.free, hfree, h.free]
    rfl
  · by_cases hi' : i ∈ freed
    · exact hfreed.vacant i hi'
    · have hnot : i ∉ t.indices := fun hit => hi (hmem hit hi')
      exact (h.vacant i hnot).same ((hsame i hnot).trans (hfreed.same i hi'))
  · exact (h.full.perm hperm).release (List.reverse_perm _) root _ _
  · rw [hfreed.was, hwas, h.was]
    rfl
  · rw [hfreed.now, hnow, h.now]
    rfl
  · have herased : (i ∈ t.wasSubstantial ∧ i ∉ freed) ∨ (i ∈ t.substantial ∧ i ∉ freed) :=
      hi.imp mem_foldl_erase.mp mem_foldl_erase.mp
    rw [← or_and_right] at herased
    exact hmem (h.marked i herased.1) herased.2

/-- **The root** is removed, and with it all nodes. -/
theorem Holds.remove_root (h : Holds s a t) (ht : t.root = some n) :
    ∃ a', remove s n.index a = .ok ⟨⟩ a' ∧ Emptied { a with root := none } a' n.slots ∧
      Holds s a' (Tree.freed { t with root := none } n.slots) := by
  have hn := h.nodes n ht
  have hhas : n.Everywhere (Has s { a with root := none }) none :=
    hn.imp fun _ _ _ _ hhas => ⟨hhas.node, hhas.staged, hhas.quantified⟩
  have hd : n.indices.Nodup := Tree.indices_of_root ht ▸ h.nodup
  obtain ⟨a', hrun, hfreed⟩ := exists_release [] hhas hd
  rw [release] at hrun
  have hperm : t.indices.Perm (n.slots ++ Tree.indices { t with root := none }) := by
    rw [Tree.indices_of_root ht, Tree.indices_of_empty (t := { t with root := none }) rfl, List.append_nil]
    exact n.slots_perm.symm
  refine ⟨a', (remove_of_root hn.root.node rfl).trans hrun, hfreed, ?_⟩
  refine h.free_slots hfreed hperm ⟨_, rfl⟩ rfl rfl rfl rfl rfl
    (fun j _ => ⟨rfl, .rfl, fun _ => .rfl⟩) fun n hn => ?_
  cases hn

theorem everywhere_prune {p : Option Nat} {c : Cell} {l k : List Node}
    (hq : (Node.mk c (l ++ m :: k)).Everywhere (a.Has s) p) (hd : (Node.mk c (l ++ m :: k)).indices.Nodup)
    (hl : ∀ kid ∈ l, kid.index ≠ m.index)
    (hfreed : Emptied (a.amend c.index (·.forget l.length m.cell.bound)) a' m.slots) :
    ((Node.mk c (l ++ m :: k)).prune m.index).Everywhere (a'.Has s) p := by
  have hslots : ∀ {j}, j ∈ m.slots ↔ j ∈ m.indices := m.slots_perm.mem_iff
  obtain ⟨hc, hkids⟩ := Node.everywhere_mk.mp hq
  have hmem : m ∈ l ++ m :: k := List.mem_append_right _ List.mem_cons_self
  have hnot : c.index ∉ m.slots := fun hi => Node.index_notMem_kid hd hmem (hslots.mp hi)
  rw [Tree.prune_append hl, Node.everywhere_mk]
  constructor
  · refine Has.same ?_ (hfreed.same c.index hnot)
    refine hc.amend rfl rfl rfl ?_
    have herase : ((l ++ m :: k).map Node.index).eraseIdx l.length = (l ++ k).map Node.index := by
      rw [List.eraseIdx_map, Lists.eraseIdx_middle]
    rw [Cell.forget_record, List.length_map, herase]
  · intro kid hk
    have hk' : kid ∈ l ++ m :: k := by
      rw [List.mem_append] at hk ⊢
      exact hk.imp_right (List.mem_cons_of_mem _)
    refine (hkids kid hk').imp fun p' c' ks hc' hhas => hhas.same ((same_amend a _ ?_).trans (hfreed.same _ ?_))
    · intro e
      have hmem' : c'.index ∈ kid.indices := List.mem_map_of_mem hc'
      rw [e] at hmem'
      exact Node.index_notMem_kid hd hk' hmem'
    · exact fun hi => (Formula.separate hd (hslots.mp hi)).2 kid hk (List.mem_map_of_mem hc')

/-- The node above loses the branch, and nothing changes of the slots that are freed then. -/
theorem exists_remove_branch {p : Option Nat} {c : Cell} {l k : List Node}
    (hq : (Node.mk c (l ++ m :: k)).Everywhere (a.Has s) p) (hd : (Node.mk c (l ++ m :: k)).indices.Nodup)
    (hl : ∀ kid ∈ l, kid.index ≠ m.index) :
    ∃ a', remove s m.index a = .ok ⟨⟩ a' ∧
      Emptied (a.amend c.index (·.forget l.length m.cell.bound)) a' m.slots := by
  have hmem : m ∈ l ++ m :: k := List.mem_append_right _ List.mem_cons_self
  obtain ⟨hc, hkids⟩ := Node.everywhere_mk.mp hq
  have hm := hkids m hmem
  have hposition : ((l ++ m :: k).map Node.index).findIdx? (· = m.index) = some l.length := by
    rw [List.findIdx?_map]
    exact Tree.position?_append hl
  have hkept : m.Everywhere (Has s (a.amend c.index (·.forget l.length m.cell.bound))) (some c.index) :=
    hm.imp fun p' c' ks hc' hhas => hhas.same <| same_amend a _ fun e => by
      have hmem' : c'.index ∈ m.indices := List.mem_map_of_mem hc'
      rw [e] at hmem'
      exact Node.index_notMem_kid hd hmem hmem'
  obtain ⟨a', hrun, hfreed⟩ := exists_release [] hkept (Node.nodup_indices_kid hd hmem)
  rw [release] at hrun
  exact ⟨a', (remove_of_parent hm.root.node rfl hc.node hposition).trans hrun, hfreed⟩

/-- **A branch** is removed. -/
theorem Holds.remove_branch (h : Holds s a t) (ha : above ≠ [])
    (hm : t.atLineage? (m.index :: above) = some m) (hq : t.atLineage? above = some q)
    (hu : t.update? above (Node.prune m.index) = some t₁) :
    ∃ a' position, remove s m.index a = .ok ⟨⟩ a' ∧ (q.kids.map Node.index)[position]? = some m.index ∧
      Emptied (a.amend q.index (·.forget position m.cell.bound)) a' m.slots ∧
      Holds s a' (t₁.freed m.slots) := by
  have hperm := Tree.indices_prune ha hm hu
  have hslots : m.slots.Perm m.indices := m.slots_perm
  have hqd := Tree.nodup_of_atLineage? h.nodup hq
  obtain ⟨p, hqhas⟩ := h.everywhere_of_atLineage? hq
  obtain ⟨n, ht⟩ := Tree.exists_root_of_atLineage? hq
  obtain ⟨way, n', hway, hn', rfl⟩ := Tree.exists_of_update? hu ht
  have hqn : q ∈ n.subtrees := Node.mem_of_follow? (hway.symm.trans hq)
  have hqt : q.indices ⊆ t.indices := Tree.indices_of_root ht ▸ Node.indices_subset_of_mem hqn
  obtain ⟨c, kids⟩ := q
  obtain ⟨l, k, rfl, -, hl⟩ := Node.exists_of_follow?_branch (Tree.follow?_of_atLineage? ha hm hq)
  obtain ⟨a', hrun, hfreed⟩ := exists_remove_branch hqhas hqd hl
  refine ⟨a', l.length, hrun, by simp, hfreed, ?_⟩
  refine h.free_slots hfreed (hperm.trans (hslots.symm.append_right _)) ⟨_, rfl⟩ ?_
    (rewritten_amend _ _ _).length rfl rfl rfl (fun j hj => same_amend a _ ?_) fun n₁ hn₁ => ?_
  · have hindex : n'.index = n.index := Node.index_update? (fun k _ => Tree.index_prune m.index k) hn'
    refine h.root.trans ?_
    rw [ht]
    exact congrArg some hindex.symm
  · exact fun e => hj (hqt (e ▸ Node.index_mem_indices (.mk c (l ++ m :: k))))
  · cases hn₁
    refine (h.nodes n ht).update? (Tree.indices_of_root ht ▸ h.nodup) hn' (hway.symm.trans hq)
      (Tree.index_prune _ _) (fun p' hp' => everywhere_prune hp' hqd hl hfreed) fun p' c' ks _ hc' hhas => ?_
    refine hhas.same ((same_amend a _ fun e => ?_).trans (hfreed.same _ fun hi => ?_))
    · exact hc' (e ▸ Node.index_mem_indices (.mk c (l ++ m :: k)))
    · exact hc' (Node.mem_indices_of_mem_kids (List.mem_append_right _ List.mem_cons_self) (hslots.subset hi))

/-- **Removals** from arenas and from instantiations. -/
theorem simulates_remove (i : Nat) :
    Routine.Simulates (Holds s) (remove s i) (Tree.remove i) := by
  intro a t h
  by_cases hi : i ∈ t.indices
  · obtain ⟨above, m, hlineage, hm, rfl⟩ := Tree.exists_lineage h.nodup hi
    rcases h.exists_parent hm with ⟨rfl, ht, -⟩ | ⟨habove, q, hq, -, -⟩
    · obtain ⟨a', hrun, -, hheld⟩ := h.remove_root ht
      rw [hrun, Tree.remove_root ht hlineage]
      exact .ok hheld
    · obtain ⟨t₁, hu⟩ := Tree.exists_tree_update? (f := Node.prune m.index) hq
      obtain ⟨a', -, hrun, -, -, hheld⟩ := h.remove_branch habove hm hq hu
      have htree : Tree.remove m.index t = .ok ⟨⟩ (t₁.freed m.slots) :=
        (Routine.bind_ok hlineage).trans (Tree.removeAt_ok habove hm hu)
      rw [hrun, htree]
      exact .ok hheld
  · have hnone : a.node? i = none := (h.vacant i hi).node
    unfold Tree.remove
    rw [remove_error hnone, Routine.bind_error (Tree.lineage_error hi)]
    exact .error h

end Arena

end RuleMonitor
