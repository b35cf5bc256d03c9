import Mathlib.Data.List.Pairwise
import RuleMonitor.Proofs.Instances.Edits

/-!
# Nodes that survive edits

A removal frees the slots of a branch, and a slot that is in use is only taken again after it was
freed. A node whose slot no edit frees stays: nothing changes of it but what it notes about its
branches.

* `Tree.frees`, `Tree.freedBy`: the slots that an edit frees, and those that edits in a row free.
* `Cell.Lasts`: a cell that only notes other branches; `Node.Keeps`: the nodes outside some slots stay.
* **`Tree.edit_keeps`**, **`Tree.Runs.keeps`**: an edit, and edits in a row, keep the nodes in the slots
  that they do not free; **`Tree.edit_owns`**, **`Tree.Runs.owns`**: no slot comes into use twice.
* `Tree.Shrinks`: no node becomes substantial.
* `Tree.Runs.freedBy_within`: edits of a branch free what they free of the branch alone.
-/

namespace RuleMonitor

open Std (ExtTreeMap ExtTreeSet)

/-- The cell after its node got or lost branches. -/
def Cell.Lasts (c c' : Cell) : Prop :=
  ∃ fresh pruned truths, c' = { c with fresh, pruned, branchTruths := truths }

namespace Cell

variable {c c₁ c' : Cell}

theorem Lasts.refl (c : Cell) : c.Lasts c :=
  ⟨_, _, _, rfl⟩

theorem Lasts.trans (h : c.Lasts c₁) (h' : c₁.Lasts c') : c.Lasts c' := by
  obtain ⟨_, _, _, rfl⟩ := h
  obtain ⟨fresh, pruned, truths, rfl⟩ := h'
  exact ⟨fresh, pruned, truths, rfl⟩

theorem Lasts.index (h : c.Lasts c') : c'.index = c.index := by
  obtain ⟨_, _, _, rfl⟩ := h
  rfl

end Cell

namespace Node

variable {freed freed' : List Nat} {n n₁ n' : Node} {c c' : Cell} {kids kids' : List Node}

theorem index_mem_of_mem {m : Node} (h : m ∈ n.subtrees) : m.index ∈ n.indices :=
  List.mem_map.mpr ⟨m.cell, cell_mem_cells_of_mem h, rfl⟩

theorem exists_of_mem_indices {i : Nat} (h : i ∈ n.indices) : ∃ m ∈ n.subtrees, m.index = i := by
  rw [indices, ← map_cell_subtrees, List.map_map] at h
  exact List.mem_map.mp h

theorem mem_of_find? {i : Nat} {m : Node} (h : n.find? i = some m) :
    m ∈ n.subtrees ∧ m.index = i := by
  induction n using induct with
  | mk c kids ih =>
    rw [find?_mk] at h
    split_ifs at h with hi
    · cases h
      exact ⟨mem_subtrees_self _, hi⟩
    · obtain ⟨kid, hk, hm⟩ := List.exists_of_findSome?_eq_some h
      exact ⟨mem_subtrees_of_mem_kids (n := .mk c kids) hk (ih kid hk hm).1, (ih kid hk hm).2⟩

theorem indices_subset_of_mem {m : Node} (h : m ∈ n.subtrees) : m.indices ⊆ n.indices :=
  List.map_subset _ (cells_subset_of_mem h)

theorem index_notMem_kid {kid : Node} (hd : n.indices.Nodup) (hk : kid ∈ n.kids) :
    n.index ∉ kid.indices := by
  obtain ⟨c, kids⟩ := n
  rw [indices_mk, List.nodup_cons] at hd
  exact fun h => hd.1 (List.mem_flatMap.mpr ⟨kid, hk, h⟩)

theorem eq_of_mem_indices {k kid : Node} {i : Nat} (hd : (Node.mk c kids).indices.Nodup)
    (hk : k ∈ kids) (hkid : kid ∈ kids) (hi : i ∈ k.indices) (hi' : i ∈ kid.indices) : k = kid := by
  rw [indices_mk, List.nodup_cons, List.nodup_flatMap] at hd
  have hsymm : Std.Symm (Function.onFun List.Disjoint indices) := ⟨fun _ _ h _ ha hb => h hb ha⟩
  by_contra hne
  exact hd.2.2.forall hk hkid hne hi hi'

theorem disjoint_pair {a b : Node} {i : Nat} (hd : (Node.mk c [a, b]).indices.Nodup)
    (ha : i ∈ a.indices) (hb : i ∈ b.indices) : False := by
  rw [indices_mk, List.nodup_cons, List.flatMap_cons, List.nodup_append] at hd
  exact hd.2.2.2 i ha i (by simpa using hb) rfl

/-- The slots of a node are those of a branch and of the node without it. -/
theorem indices_perm (c : Cell) (l : List Node) (kid : Node) (r : List Node) :
    (mk c (l ++ kid :: r)).indices.Perm (kid.indices ++ (mk c (l ++ r)).indices) := by
  rw [indices_mk, indices_mk, List.flatMap_append, List.flatMap_cons, List.flatMap_append]
  have h : (l.flatMap indices ++ (kid.indices ++ r.flatMap indices)).Perm
      (kid.indices ++ (l.flatMap indices ++ r.flatMap indices)) := by
    rw [← List.append_assoc, ← List.append_assoc]
    exact List.perm_append_comm.append_right _
  exact (h.cons c.index).trans List.perm_middle.symm

/-- All nodes stay, except for those in some slots. -/
def Keeps (freed : List Nat) (n n' : Node) : Prop :=
  ∀ m ∈ n.subtrees, m.index ∉ freed → ∃ m' ∈ n'.subtrees, m.cell.Lasts m'.cell

theorem Keeps.refl (freed : List Nat) (n : Node) : n.Keeps freed n :=
  fun m hm _ => ⟨m, hm, .refl _⟩

theorem Keeps.trans (h : n.Keeps freed n₁) (h' : n₁.Keeps freed' n') :
    n.Keeps (freed ++ freed') n' := by
  intro m hm hi
  rw [List.mem_append, not_or] at hi
  obtain ⟨m₁, hm₁, h₁⟩ := h m hm hi.1
  have hindex : m₁.index = m.index := h₁.index
  obtain ⟨m', hm', h₂⟩ := h' m₁ hm₁ (hindex ▸ hi.2)
  exact ⟨m', hm', h₁.trans h₂⟩

theorem Keeps.mk (hc : c.Lasts c')
    (hk : ∀ kid ∈ kids, (∃ kid' ∈ kids', kid.Keeps freed kid') ∨ kid.indices ⊆ freed) :
    (Node.mk c kids).Keeps freed (.mk c' kids') := by
  intro m hm hi
  rw [subtrees_mk, List.mem_cons, List.mem_flatMap] at hm
  rcases hm with rfl | ⟨kid, hkid, hm⟩
  · exact ⟨_, mem_subtrees_self _, hc⟩
  · rcases hk kid hkid with ⟨kid', hkid', hkeeps⟩ | hfreed
    · obtain ⟨m', hm', hl⟩ := hkeeps m hm hi
      exact ⟨m', mem_subtrees_of_mem_kids (n := .mk c' kids') hkid' hm', hl⟩
    · exact absurd (hfreed (index_mem_of_mem hm)) hi

/-! ## Changes at the end of a way -/

/-- What a change keeps of the node that it changes, it keeps of the whole. -/
theorem keeps_of_update? {f : Node → Node} {way : List Nat} (hu : n.update? f way = some n')
    (hf : ∀ p, n.follow? way = some p → p.Keeps freed (f p)) : n.Keeps freed n' := by
  induction way generalizing n n' with
  | nil =>
    cases hu
    exact hf n rfl
  | cons index way ih =>
    obtain ⟨c, kids⟩ := n
    obtain ⟨l, kid, r, kid', rfl, rfl, hl, hkid, rfl⟩ := exists_of_update?_cons hu
    have hkeeps : kid.Keeps freed kid' := ih hkid fun p hp => hf p (by
      rw [follow?, Tree.find?_append hl]
      exact hp)
    refine .mk (.refl c) fun k hk => .inl ?_
    rcases List.mem_append.mp hk with hk | hk
    · exact ⟨k, List.mem_append_left _ hk, .refl _ k⟩
    · rcases List.mem_cons.mp hk with rfl | hk
      · exact ⟨kid', by simp, hkeeps⟩
      · exact ⟨k, by simp [hk], .refl _ k⟩

theorem indices_of_update? {f : Node → Node} {way : List Nat} (hu : n.update? f way = some n') :
    ∃ p rest, n.follow? way = some p ∧ n.indices.Perm (p.indices ++ rest) ∧
      n'.indices.Perm ((f p).indices ++ rest) := by
  induction way generalizing n n' with
  | nil =>
    cases hu
    exact ⟨n, [], rfl, by simp, by simp⟩
  | cons index way ih =>
    obtain ⟨c, kids⟩ := n
    obtain ⟨l, kid, r, kid', rfl, rfl, hl, hkid, rfl⟩ := exists_of_update?_cons hu
    obtain ⟨p, rest, hp, h, h'⟩ := ih hkid
    refine ⟨p, rest ++ (mk c (l ++ r)).indices, ?_, ?_, ?_⟩
    · rw [follow?, Tree.find?_append hl]
      exact hp
    · rw [← List.append_assoc]
      exact (indices_perm c l kid r).trans (h.append_right _)
    · rw [← List.append_assoc]
      exact (indices_perm c l kid' r).trans (h'.append_right _)

/-! ## One branch less, or one more -/

theorem indices_touch (n : Node) : n.touch.indices = n.indices := by
  obtain ⟨c, kids⟩ := n
  rw [touch, indices_mk, indices_mk]

theorem indices_graft (n branch : Node) :
    (n.graft branch).indices.Perm (branch.indices ++ n.indices) := by
  obtain ⟨c, kids⟩ := n
  have h := indices_perm { c with fresh := c.fresh + 1 } kids branch []
  rwa [List.append_nil] at h

theorem indices_prune {index : Nat} {kid : Node} (h : n.follow? [index] = some kid) :
    n.indices.Perm (kid.indices ++ (n.prune index).indices) := by
  obtain ⟨c, kids⟩ := n
  obtain ⟨l, r, rfl, rfl, hl⟩ := exists_of_follow?_branch h
  rw [Tree.prune_append hl, indices_mk (c.forget _ _ _)]
  have h := indices_perm c l kid r
  rwa [indices_mk c (l ++ r)] at h

theorem keeps_touch (n : Node) : n.Keeps freed n.touch := by
  obtain ⟨c, kids⟩ := n
  exact .mk ⟨_, _, _, rfl⟩ fun k hk => .inl ⟨k, hk, .refl _ k⟩

theorem keeps_graft (n branch : Node) : n.Keeps freed (n.graft branch) := by
  obtain ⟨c, kids⟩ := n
  exact .mk ⟨_, _, _, rfl⟩ fun k hk => .inl ⟨k, List.mem_append_left _ hk, .refl _ k⟩

theorem keeps_prune {index : Nat} {kid : Node} (h : n.follow? [index] = some kid) :
    n.Keeps kid.slots (n.prune index) := by
  obtain ⟨c, kids⟩ := n
  obtain ⟨l, r, rfl, rfl, hl⟩ := exists_of_follow?_branch h
  rw [Tree.prune_append hl]
  refine .mk ⟨_, _, _, rfl⟩ fun k hk => ?_
  by_cases hm : k ∈ l ++ r
  · exact .inl ⟨k, hm, .refl _ k⟩
  · obtain rfl : k = kid := by
      simp only [List.mem_append, List.mem_cons] at hk hm
      tauto
    exact .inr k.slots_perm.symm.subset

end Node

namespace Tree

variable {s : Sentence} {t t₁ t' : Tree} {n n' : Node} {e : Edit} {es es' : List Edit}

/-! ## The slots that edits free -/

/-- The slots that an edit frees. -/
def frees (t : Tree) : Edit → List Nat
  | .remove lineage => ((t.atLineage? lineage).map Node.slots).getD []
  | _ => []

/-- The slots that edits in a row free. -/
def freedBy (s : Sentence) (t : Tree) : List Edit → List Nat
  | [] => []
  | e :: es => t.frees e ++ ((edit s e).after t).freedBy s es

theorem freedBy_cons (he : edit s e t = .ok () t₁) (es : List Edit) :
    t.freedBy s (e :: es) = t.frees e ++ t₁.freedBy s es := by
  rw [freedBy, Routine.after_eq he]

theorem Runs.freedBy_append (h : Runs s es t t₁) (es' : List Edit) :
    t.freedBy s (es ++ es') = t.freedBy s es ++ t₁.freedBy s es' := by
  induction h with
  | nil t => rfl
  | cons he _ _ ih => rw [List.cons_append, freedBy_cons he, freedBy_cons he, ih, List.append_assoc]

theorem freedBy_eq_nil (h : ∀ e ∈ es, ∀ t : Tree, t.frees e = []) (t : Tree) :
    t.freedBy s es = [] := by
  induction es generalizing t with
  | nil => rfl
  | cons e es ih =>
    rw [List.forall_mem_cons] at h
    rw [freedBy, h.1, ih h.2, List.append_nil]

theorem index_eq_of_atLineage? {index : Nat} {above : List Nat}
    (h : t.atLineage? (index :: above) = some n) : n.index = index := by
  cases above with
  | nil =>
    obtain ⟨root, ht⟩ := exists_root_of_atLineage? h
    obtain ⟨way, hl, h⟩ := (atLineage?_eq_some ht).mp h
    cases hl
    cases h
    rfl
  | cons top above =>
    obtain ⟨⟨c, kids⟩, -, hp⟩ := exists_above (List.cons_ne_nil _ _) h
    obtain ⟨l, r, -, hi, -⟩ := Node.exists_of_follow?_branch hp
    exact hi

theorem index_mem_frees {lineage : List Nat} (he : edit s (.remove lineage) t = .ok () t')
    (ht' : t'.root = some n') : (Edit.remove lineage).index ∈ t.frees (.remove lineage) := by
  obtain ⟨index, above, m, t₁, rfl, -, hm, -, -⟩ := exists_of_removeAt he ht'
  rw [frees, hm]
  have hi : m.index = index := index_eq_of_atLineage? hm
  exact m.slots_perm.mem_iff.mpr (hi ▸ m.index_mem_indices)

/-! ## Edits of a branch -/

theorem frees_within {c : Cell} {l r : List Node} (h : ∀ k ∈ l, k.index ≠ n.index)
    (ht : t.root = some n) (he : edit s e t = .ok () t') (ht' : t'.root = some n') :
    (t.within c l n r).frees (e.below [c.index]) = t.frees e := by
  cases e with
  | touch lineage | graft lineage branch => rfl
  | remove lineage =>
    obtain ⟨index, above, m, t₁, rfl, -, hm, -, -⟩ := exists_of_removeAt he ht'
    rw [Edit.below, frees, frees, hm, atLineage?_within h ht hm]

theorem Runs.freedBy_within {c : Cell} {l r : List Node} (hs : Runs s es t t') : ∀ {n : Node},
    t.root = some n → (∀ k ∈ l, k.index ≠ n.index) →
    (t.within c l n r).freedBy s (es.map (Edit.below [c.index])) = t.freedBy s es := by
  induction hs with
  | nil t => exact fun _ _ => rfl
  | cons he hr _ ih =>
    intro n ht h
    obtain ⟨n₁, hn₁⟩ := Option.isSome_iff_exists.mp hr
    have hi := edit_index ht hn₁ he
    rw [List.map_cons, freedBy_cons he, freedBy_cons (edit_within h ht hn₁ he),
      frees_within h ht he hn₁, ih hn₁ (hi ▸ h)]

/-! ## What edits keep -/

/-- A change of the node with a lineage is one of the root, at the end of a way. -/
theorem exists_of_update? {lineage : List Nat} {f : Node → Node} (hu : t.update? lineage f = some t')
    (ht : t.root = some n) : ∃ way n', t.atLineage? lineage = n.follow? way ∧
      n.update? f way = some n' ∧ t' = { t with root := some n' } := by
  obtain ⟨way, n', hl, hn', rfl⟩ := (update?_eq_some ht).mp hu
  exact ⟨way, n', atLineage?_eq ht hl, hn', rfl⟩

theorem follow?_of_atLineage? {index : Nat} {above : List Nat} {m p : Node} (ha : above ≠ [])
    (hm : t.atLineage? (index :: above) = some m) (hp : t.atLineage? above = some p) :
    p.follow? [index] = some m := by
  obtain ⟨p', hp', h⟩ := exists_above ha hm
  rw [hp] at hp'
  cases hp'
  exact h

/-- **An edit keeps** the nodes in the slots that it does not free. -/
theorem edit_keeps (ht : t.root = some n) (ht' : t'.root = some n') (he : edit s e t = .ok () t') :
    n.Keeps (t.frees e) n' := by
  cases e with
  | touch lineage =>
    obtain ⟨way, n₁, -, hn, rfl⟩ := exists_of_update? (changeAt_ok.mp he) ht
    cases ht'
    exact Node.keeps_of_update? hn fun p _ => p.keeps_touch
  | remove lineage =>
    obtain ⟨index, above, m, t₁, rfl, ha, hm, hu, rfl⟩ := exists_of_removeAt he ht'
    obtain ⟨way, n₁, hway, hn, rfl⟩ := exists_of_update? hu ht
    cases ht'
    rw [frees, hm]
    exact Node.keeps_of_update? hn fun p hp =>
      Node.keeps_prune (follow?_of_atLineage? ha hm (hway.trans hp))
  | graft lineage branch =>
    obtain ⟨-, -, hu⟩ := edit_graft_ok.mp he
    obtain ⟨way, n₁, -, hn, rfl⟩ := exists_of_update? (t := t.taken branch.size) hu ht
    cases ht'
    exact Node.keeps_of_update? hn fun p _ => p.keeps_graft _

/-- **An edit keeps slots apart**: a removal frees the slots that were in use, and a graft takes free
ones. -/
theorem edit_owns {live : List Nat} (ht : t.root = some n) (ht' : t'.root = some n')
    (he : edit s e t = .ok () t') (ho : t.Owns (n.indices ++ live)) : t'.Owns (n'.indices ++ live) := by
  cases e with
  | touch lineage =>
    obtain ⟨way, n₁, -, hn, rfl⟩ := exists_of_update? (changeAt_ok.mp he) ht
    cases ht'
    obtain ⟨p, rest, -, h, h'⟩ := Node.indices_of_update? hn
    rw [p.indices_touch] at h'
    exact Owns.perm (t := { t with root := some n' }) ho ((h.trans h'.symm).append_right live)
  | remove lineage =>
    obtain ⟨index, above, m, t₁, rfl, ha, hm, hu, rfl⟩ := exists_of_removeAt he ht'
    obtain ⟨way, n₁, hway, hn, rfl⟩ := exists_of_update? hu ht
    cases ht'
    obtain ⟨p, rest, hp, h, h'⟩ := Node.indices_of_update? hn
    have hsplit := Node.indices_prune (follow?_of_atLineage? ha hm (hway.trans hp))
    have hperm : n.indices.Perm (m.indices ++ n'.indices) := by
      refine h.trans ((hsplit.append_right rest).trans ?_)
      rw [List.append_assoc]
      exact h'.symm.append_left _
    have hown := (ho.perm (hperm.append_right live))
    rw [List.append_assoc] at hown
    exact hown.release ((List.reverse_perm _).trans m.slots_perm) _ _ _
  | graft lineage branch =>
    obtain ⟨-, -, hu⟩ := edit_graft_ok.mp he
    obtain ⟨way, n₁, -, hn, rfl⟩ := exists_of_update? (t := t.taken branch.size) hu ht
    cases ht'
    obtain ⟨p, rest, -, h, h'⟩ := Node.indices_of_update? hn
    let m := (branch.place (t.nextSlots branch.size)).1
    have hm : m.indices = t.nextSlots branch.size := by
      have hl := t.length_nextSlots branch.size
      rw [(branch.place_eq _ (Nat.le_of_eq hl.symm)).1]
      exact List.take_of_length_le (Nat.le_of_eq hl)
    have hperm : n'.indices.Perm (m.indices ++ n.indices) := by
      refine h'.trans (((p.indices_graft m).append_right rest).trans ?_)
      rw [List.append_assoc]
      exact h.symm.append_left _
    have htake := ho.take branch.size (some n') t.wasSubstantial t.substantial
    rw [← hm, ← List.append_assoc] at htake
    exact Owns.perm (t := { t.taken branch.size with root := some n' }) htake
      (hperm.symm.append_right live)

/-- The sets of substantial nodes only lose nodes. -/
def Shrinks (t t' : Tree) : Prop :=
  (t.substantial = ∅ → t'.substantial = ∅) ∧ ∀ i, i ∈ t'.wasSubstantial → i ∈ t.wasSubstantial

theorem Shrinks.refl (t : Tree) : t.Shrinks t :=
  ⟨id, fun _ => id⟩

theorem Shrinks.trans {t t₁ t₂ : Tree} (h : t.Shrinks t₁) (h' : t₁.Shrinks t₂) : t.Shrinks t₂ :=
  ⟨h'.1 ∘ h.1, fun i hi => h.2 i (h'.2 i hi)⟩

theorem mem_of_mem_foldl_erase {slots : List Nat} {i : Nat} : ∀ {m : ExtTreeSet Nat},
    i ∈ slots.foldl (·.erase ·) m → i ∈ m := by
  induction slots with
  | nil => exact id
  | cons slot slots ih => exact fun h => ExtTreeSet.mem_of_mem_erase (ih h)

theorem shrinks_freed (t : Tree) (root : Option Node) (slots : List Nat) :
    t.Shrinks (freed { t with root } slots) := by
  refine ⟨fun h => ?_, fun i hi => mem_of_mem_foldl_erase hi⟩
  refine ExtTreeSet.ext_mem fun i => ⟨fun hi => ?_, fun hi => absurd hi ExtTreeSet.not_mem_empty⟩
  have := mem_of_mem_foldl_erase hi
  rwa [h] at this

theorem edit_shrinks (ht : t.root = some n) (ht' : t'.root = some n') (he : edit s e t = .ok () t') :
    t.Shrinks t' := by
  cases e with
  | touch lineage =>
    obtain ⟨way, n₁, -, -, rfl⟩ := exists_of_update? (changeAt_ok.mp he) ht
    exact .refl t
  | remove lineage =>
    obtain ⟨index, above, m, t₁, rfl, -, -, hu, rfl⟩ := exists_of_removeAt he ht'
    obtain ⟨way, n₁, -, -, rfl⟩ := exists_of_update? hu ht
    exact shrinks_freed t (some n₁) m.slots
  | graft lineage branch =>
    obtain ⟨-, -, hu⟩ := edit_graft_ok.mp he
    obtain ⟨way, n₁, -, -, rfl⟩ := exists_of_update? (t := t.taken branch.size) hu ht
    exact .refl t

/-- **Edits in a row keep** the nodes in the slots that they do not free. -/
theorem Runs.keeps (hs : Runs s es t t') : ∀ {n n' : Node},
    t.root = some n → t'.root = some n' → n.Keeps (t.freedBy s es) n' := by
  induction hs with
  | nil t =>
    intro n n' ht ht'
    rw [ht] at ht'
    cases ht'
    exact .refl _ n
  | cons he hr _ ih =>
    intro n n' ht ht'
    obtain ⟨n₁, hn₁⟩ := Option.isSome_iff_exists.mp hr
    rw [freedBy_cons he]
    exact (edit_keeps ht hn₁ he).trans (ih hn₁ ht')

/-- **Edits in a row keep slots apart.** -/
theorem Runs.owns {live : List Nat} (hs : Runs s es t t') : ∀ {n n' : Node},
    t.root = some n → t'.root = some n' → t.Owns (n.indices ++ live) →
    t'.Owns (n'.indices ++ live) := by
  induction hs with
  | nil t =>
    intro n n' ht ht' ho
    rw [ht] at ht'
    cases ht'
    exact ho
  | cons he hr _ ih =>
    intro n n' ht ht' ho
    obtain ⟨n₁, hn₁⟩ := Option.isSome_iff_exists.mp hr
    exact ih hn₁ ht' (edit_owns ht hn₁ he ho)

theorem Runs.shrinks (hs : Runs s es t t') : t.root.isSome = true → t.Shrinks t' := by
  induction hs with
  | nil t => exact fun _ => .refl t
  | cons he hr _ ih =>
    intro h
    obtain ⟨n, hn⟩ := Option.isSome_iff_exists.mp h
    obtain ⟨n₁, hn₁⟩ := Option.isSome_iff_exists.mp hr
    exact (edit_shrinks hn hn₁ he).trans (ih hr)

theorem Runs.find?_lasts {i : Nat} {m : Node} (hs : Runs s es t t') (ht : t.root = some n)
    (ht' : t'.root = some n') (ho : t.Owns n.indices) (hm : t.find? i = some m)
    (hi : i ∉ t.freedBy s es) : ∃ m', t'.find? i = some m' ∧ m.cell.Lasts m'.cell := by
  have hown : t.Owns (n.indices ++ []) := by
    rwa [List.append_nil]
  have hd' := (hs.owns ht ht' hown).nodup
  rw [List.append_nil] at hd'
  unfold find? at hm ⊢
  rw [ht] at hm
  rw [ht']
  obtain ⟨hmem, rfl⟩ := Node.mem_of_find? hm
  obtain ⟨m', hm', hl⟩ := hs.keeps ht ht' m hmem hi
  have hindex : m'.index = m.index := hl.index
  exact ⟨m', hindex ▸ Node.find?_of_mem hd' hm', hl⟩

theorem Runs.split (hs : Runs s (es ++ es') t t') (hr : t.root.isSome = true) :
    ∃ t₁, Runs s es t t₁ ∧ t₁.root.isSome = true ∧ Runs s es' t₁ t' := by
  induction es generalizing t with
  | nil => exact ⟨t, .nil t, hr, hs⟩
  | cons e es ih =>
    cases hs with
    | cons he hr₁ hs =>
      obtain ⟨t₁, h, hroot, h'⟩ := ih hs hr₁
      exact ⟨t₁, .cons he hr₁ h, hroot, h'⟩

end Tree

end RuleMonitor
