import RuleMonitor.Proofs.Instances.Invariants
import RuleMonitor.Proofs.Instances.Surviving

/-!
# Edits at a node

Edits that are planned for a node only address it and the nodes below it. They do the same whatever the
tree around the node is, so edits for the branches of a node make edits for the node.

* `Tree.Performs`: edits that succeed at a node, what they make of it, and the slots that they free.
* **`Tree.Performs.branch`**, `Tree.performs_branches`: edits of branches.
* `Tree.graft_branches`, `Tree.remove_branches`: branches that come and go.
-/

namespace RuleMonitor

open Std (ExtTreeMap ExtTreeSet)

namespace Tree

/-- At a node, whatever the tree around it, the edits succeed, make of it what a relation tells, and
free some slots. -/
def Performs (s : Sentence) (R : Node → Node → Prop) (freed : Node → List Nat) (es : List Edit)
    (n : Node) : Prop :=
  ∀ (t : Tree) (live : List Nat), t.root = some n → t.Owns (n.indices ++ live) →
    ∃ t' n', Runs s es t t' ∧ t'.root = some n' ∧ R n n' ∧ (t.freedBy s es).Perm (freed n)

variable {s : Sentence} {R : Node → Node → Prop} {freed : Node → List Nat} {es : List Edit}
  {t : Tree} {c : Cell} {l r kids : List Node} {kid n : Node} {live : List Nat}

theorem performs_nil (h : R n n) (hf : freed n = []) : Performs s R freed [] n :=
  fun t _ ht _ => ⟨t, n, .nil t, ht, h, by rw [hf, freedBy]⟩

theorem indices_append (c : Cell) (l : List Node) (kid : Node) (r : List Node) (live : List Nat) :
    ((Node.mk c (l ++ kid :: r)).indices ++ live).Perm
      (kid.indices ++ ((Node.mk c (l ++ r)).indices ++ live)) := by
  rw [← List.append_assoc]
  exact (Node.indices_perm c l kid r).append_right live

theorem index_ne_of_owns (h : t.Owns ((Node.mk c (l ++ kid :: r)).indices ++ live)) :
    ∀ k ∈ l ++ r, k.index ≠ kid.index := by
  intro k hk e
  have hd := (h.perm (indices_append c l kid r live)).nodup
  have hmem : k.index ∈ (Node.mk c (l ++ r)).indices ++ live :=
    List.mem_append_left _ (Node.mem_indices_of_mem_kids hk k.index_mem_indices)
  exact (List.nodup_append.mp hd).2.2 kid.index kid.index_mem_indices k.index hmem e.symm

/-- **Edits of a branch.** -/
theorem Performs.branch (h : Performs s R freed es kid) (ht : t.root = some (.mk c (l ++ kid :: r)))
    (ho : t.Owns ((Node.mk c (l ++ kid :: r)).indices ++ live)) :
    ∃ t' kid', Runs s (es.map (Edit.below [c.index])) t t' ∧
      t'.root = some (.mk c (l ++ kid' :: r)) ∧ R kid kid' ∧
      (t.freedBy s (es.map (Edit.below [c.index]))).Perm (freed kid) := by
  have hlocal : Owns { t with root := some kid }
      (kid.indices ++ ((Node.mk c (l ++ r)).indices ++ live)) :=
    Owns.perm (t := { t with root := some kid }) ho (indices_append c l kid r live)
  obtain ⟨t₁, kid', hruns, hroot, hR, hfreed⟩ := h { t with root := some kid } _ rfl hlocal
  have hne : ∀ k ∈ l, k.index ≠ kid.index :=
    fun k hk => index_ne_of_owns ho k (List.mem_append_left r hk)
  obtain ⟨hwithin, -⟩ := hruns.within (c := c) (l := l) (r := r) rfl hroot hne
  have hfrees := hruns.freedBy_within (c := c) (l := l) (r := r) rfl hne
  have hback : within { t with root := some kid } c l kid r = t := by
    unfold within
    rw [← ht]
  rw [hback] at hwithin hfrees
  exact ⟨_, kid', hwithin, rfl, hR, hfrees ▸ hfreed⟩

theorem performs_branches {ess : List (List Edit)}
    (h : List.Forall₂ (fun kid es => Performs s R freed es kid) kids ess) :
    ∀ (l : List Node) (t : Tree), t.root = some (.mk c (l ++ kids)) →
    t.Owns ((Node.mk c (l ++ kids)).indices ++ live) →
    ∃ t' kids', Runs s (ess.flatMap fun es => es.map (Edit.below [c.index])) t t' ∧
      t'.root = some (.mk c (l ++ kids')) ∧ List.Forall₂ R kids kids' ∧
      (t.freedBy s (ess.flatMap fun es => es.map (Edit.below [c.index]))).Perm
        (kids.flatMap freed) := by
  induction h with
  | nil => exact fun l t ht _ => ⟨t, [], .nil t, ht, .nil, .refl _⟩
  | cons hkid _ ih =>
    intro l t ht ho
    obtain ⟨t₁, kid', hruns₁, ht₁, hR, hf₁⟩ := hkid.branch ht ho
    rw [List.append_cons] at ht₁
    obtain ⟨t₂, kids', hruns₂, ht₂, hRs, hf₂⟩ := ih (l ++ [kid']) t₁ ht₁ (hruns₁.owns ht ht₁ ho)
    rw [← List.append_cons] at ht₂
    refine ⟨t₂, kid' :: kids', hruns₁.append hruns₂, ht₂, .cons hR hRs, ?_⟩
    rw [List.flatMap_cons, List.flatMap_cons, hruns₁.freedBy_append]
    exact hf₁.append hf₂

/-! ## Grafts -/

theorem graft_branches (frs : List Fragment) (hf : ∀ fr ∈ frs, ∀ f ∈ fr.formulas, f < s.nodes.length) :
    ∀ (c : Cell) (kids : List Node) (t : Tree), t.root = some (.mk c kids) →
    ∃ t' new, Runs s (frs.map fun fr => .graft [c.index] fr) t t' ∧
      t'.root = some (.mk { c with fresh := c.fresh + new.length } (kids ++ new)) ∧
      List.Forall₂ (fun fr n => ∃ slots, n = (fr.place slots).1) frs new := by
  induction frs with
  | nil =>
    intro c kids t ht
    refine ⟨t, [], .nil t, ?_, .nil⟩
    rw [List.append_nil]
    exact ht
  | cons fr frs ih =>
    intro c kids t ht
    rw [List.forall_mem_cons] at hf
    let m := (fr.place (t.nextSlots fr.size)).1
    let t₁ : Tree := { t.taken fr.size with
      root := some (.mk { c with fresh := c.fresh + 1 } (kids ++ [m])) }
    have hedit : edit s (.graft [c.index] fr) t = .ok () t₁ := graft_branch ht hf.1
    obtain ⟨t₂, new, hruns, ht₂, hnew⟩ :=
      ih hf.2 { c with fresh := c.fresh + 1 } (kids ++ [m]) t₁ rfl
    refine ⟨t₂, m :: new, .cons hedit rfl hruns, ?_, .cons ⟨_, rfl⟩ hnew⟩
    rw [ht₂, List.append_assoc, List.length_cons, Nat.add_right_comm, Nat.add_assoc c.fresh]
    rfl

/-! ## Removals -/

theorem filter_index {gone : List Node} (h : ∀ k ∈ l ++ r, k.index ≠ kid.index) :
    (l ++ kid :: r).filter (fun k => k.index ∉ (kid :: gone).map Node.index) =
      (l ++ r).filter fun k => k.index ∉ gone.map Node.index := by
  have hf : ∀ k ∈ l ++ r, decide (k.index ∉ (kid :: gone).map Node.index) =
      decide (k.index ∉ gone.map Node.index) := by
    intro k hk
    rw [decide_eq_decide, List.map_cons, List.mem_cons]
    exact not_congr (or_iff_right (h k hk))
  rw [List.filter_append, List.filter_append, List.filter_cons_of_neg (by simp)]
  refine congrArg₂ _ (List.filter_congr fun k hk => ?_) (List.filter_congr fun k hk => ?_)
  · exact hf k (List.mem_append_left _ hk)
  · exact hf k (List.mem_append_right _ hk)

/-- Branches removed below the root. If the truths of the branches were noted, those of the branches
that are left are. -/
theorem remove_branches (gone : List Node) : ∀ (c : Cell) (kids : List Node) (t : Tree),
    t.root = some (.mk c kids) → t.Owns ((Node.mk c kids).indices ++ live) →
    (∀ kid ∈ kids, kid.cell.bound.isSome = true) →
    (kids.map fun k => k.cell.bound.getD 0).Nodup → c.fresh = 0 →
    (∀ kid ∈ gone, kid ∈ kids) → (gone.map Node.index).Nodup →
    ∃ t' truths, Runs s (gone.map fun kid => .remove [kid.index, c.index]) t t' ∧
      t'.root = some (.mk { c with pruned := c.pruned || !gone.isEmpty, branchTruths := truths }
        (kids.filter fun k => k.index ∉ gone.map Node.index)) ∧
      (c.branchTruths = Node.stagedTruths kids →
        truths = Node.stagedTruths (kids.filter fun k => k.index ∉ gone.map Node.index)) ∧
      t.freedBy s (gone.map fun kid => .remove [kid.index, c.index]) = gone.flatMap Node.slots := by
  induction gone with
  | nil =>
    intro c kids t ht ho _ _ _ _ _
    have hk : (kids.filter fun k => k.index ∉ ([] : List Node).map Node.index) = kids :=
      List.filter_eq_self.mpr fun k _ => by simp
    rw [hk]
    refine ⟨t, c.branchTruths, .nil t, ?_, id, rfl⟩
    rw [ht, List.isEmpty_nil, Bool.not_true, Bool.or_false]
  | cons kid gone ih =>
    intro c kids t ht ho hb hd hf hg hgd
    rw [List.forall_mem_cons] at hg
    rw [List.map_cons, List.nodup_cons] at hgd
    obtain ⟨l, r, rfl⟩ := List.append_of_mem hg.1
    have hne := index_ne_of_owns ho
    have hleft : ∀ k ∈ l, k.index ≠ kid.index := fun k hk => hne k (List.mem_append_left r hk)
    have hedit := remove_branch (s := s) ht hleft
    have hfrees : t.frees (.remove [kid.index, c.index]) = kid.slots := by
      rw [frees, atLineage?_branch ht hleft]
      rfl
    have hperm : (l ++ kid :: r).Perm (kid :: (l ++ r)) := List.perm_middle
    obtain ⟨id, hid⟩ := Option.isSome_iff_exists.mp (hb kid hg.1)
    have hcell : c.forget (l ++ kid :: r).length l.length kid.cell.bound =
        { c with pruned := true, branchTruths := c.branchTruths.erase (kid.cell.bound.getD 0) } := by
      unfold Cell.forget
      rw [hid, hf, Option.getD_some]
      simp only [Nat.zero_sub, ite_self]
    rw [hcell] at hedit
    have hsub : ∀ k ∈ gone, k ∈ l ++ r := by
      intro k hk
      rcases List.mem_cons.mp (hperm.mem_iff.mp (hg.2 k hk)) with rfl | hk'
      · exact absurd (List.mem_map.mpr ⟨k, hk, rfl⟩) hgd.1
      · exact hk'
    have hd' := (hperm.map fun k => k.cell.bound.getD 0).nodup_iff.mp hd
    rw [List.map_cons, List.nodup_cons] at hd'
    let c₁ : Cell :=
      { c with pruned := true, branchTruths := c.branchTruths.erase (kid.cell.bound.getD 0) }
    have ho₁ := edit_owns ht rfl hedit ho
    obtain ⟨t', truths, hruns, ht', htruths, hfreed⟩ := ih c₁ (l ++ r) _ rfl ho₁
      (fun k hk => hb k (hperm.mem_iff.mpr (List.mem_cons_of_mem _ hk))) hd'.2 hf hsub hgd.2
    rw [filter_index hne]
    refine ⟨t', truths, .cons hedit rfl hruns, ?_, fun h => htruths ?_, ?_⟩
    · rw [ht', List.isEmpty_cons, Bool.not_false, Bool.or_true, Bool.true_or]
    · change c.branchTruths.erase _ = _
      rw [h, Node.stagedTruths_erase hd]
    · rw [List.map_cons, freedBy_cons hedit, hfrees, List.flatMap_cons]
      exact congrArg _ hfreed

end Tree

end RuleMonitor
