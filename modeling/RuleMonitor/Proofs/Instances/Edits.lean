import RuleMonitor.Evaluation.Edit
import RuleMonitor.Proofs.Routines
import RuleMonitor.Proofs.Evaluation.Fragments

/-!
# Edits below a node

An edit names its node by the slots on the way up to the root. What edits do to a tree they do in the
same way to a branch of a larger tree, when their lineages are lengthened. Each slot is that of one
node or free, and edits keep it that way.

* `Tree.Owns`: each slot is that of one of some nodes, or is free.
* `Tree.atLineage?_eq_some`, `Tree.update?_eq_some`: a lineage is the way from the root, read backwards.
* `Tree.within`: a tree as a branch; **`Tree.Runs.within`**: edits of a branch.
* `Tree.touch_root`, `Tree.remove_branch`, `Tree.graft_branch`: edits at the root and right below it.
-/

namespace RuleMonitor

open Std (ExtTreeMap ExtTreeSet)

namespace Tree

variable {t t' : Tree} {s : Sentence} {c : Cell} {l r : List Node} {n n' kid : Node}

/-! ## Slots in use -/

/-- Each slot is that of one node, or is free. -/
def Owns (t : Tree) (live : List Nat) : Prop :=
  (live ++ t.free).Perm (List.range t.slots)

theorem Owns.perm {live live' : List Nat} (h : t.Owns live) (hp : live.Perm live') :
    t.Owns live' :=
  (hp.symm.append_right _).trans h

theorem Owns.nodup {live : List Nat} (h : t.Owns live) : live.Nodup :=
  (List.nodup_append.mp (h.nodup_iff.mpr List.nodup_range)).1

theorem Owns.lt_slots {live : List Nat} {i : Nat} (h : t.Owns live) (hi : i ∈ live) : i < t.slots :=
  List.mem_range.mp (h.subset (List.mem_append_left _ hi))

theorem Owns.size_eq {live : List Nat} (h : t.Owns live) : t.size = live.length := by
  have hlength := h.length_eq
  rw [List.length_append, List.length_range] at hlength
  unfold size
  omega

theorem Owns.release {live freed freed' : List Nat} (h : t.Owns (freed ++ live))
    (hp : freed'.Perm freed) (root : Option Node) (was now : ExtTreeSet Nat) :
    Owns ⟨root, freed' ++ t.free, t.slots, was, now⟩ live := by
  unfold Owns at h ⊢
  refine List.Perm.trans ?_ h
  rw [← List.append_assoc]
  exact ((List.perm_append_comm).trans (hp.append_right live)).append_right _

theorem Owns.take {live : List Nat} (h : t.Owns live) (k : Nat) (root : Option Node)
    (was now : ExtTreeSet Nat) :
    Owns ⟨root, t.free.drop k, t.slots + (k - t.free.length), was, now⟩
      (t.nextSlots k ++ live) := by
  have hrange : List.range (t.slots + (k - t.free.length)) =
      List.range t.slots ++ List.range' t.slots (k - t.free.length) := by
    have happend := @List.range'_append_1 0 t.slots (k - t.free.length)
    rw [Nat.zero_add] at happend
    rw [List.range_eq_range', List.range_eq_range', happend]
  have hfull : (live ++ (t.free.take k ++ t.free.drop k)).Perm (List.range t.slots) := by
    rwa [List.take_append_drop]
  unfold Owns nextSlots
  rw [hrange]
  refine (List.perm_append_comm.append_right _).trans (List.Perm.trans ?_ (hfull.append_right _))
  simp only [List.append_assoc]
  exact (List.perm_append_comm.append_left _).append_left _

theorem length_nextSlots (t : Tree) (k : Nat) : (t.nextSlots k).length = k := by
  unfold nextSlots
  rw [List.length_append, List.length_take, List.length_range']
  omega

/-! ## Trees as branches -/

/-- The tree as a branch of a node. -/
def within (t : Tree) (c : Cell) (l : List Node) (n : Node) (r : List Node) : Tree :=
  { t with root := some (.mk c (l ++ n :: r)) }

theorem position?_append (h : ∀ k ∈ l, k.index ≠ n.index) :
    Node.position? n.index (l ++ n :: r) = some l.length := by
  unfold Node.position?
  rw [List.findIdx?_append, List.findIdx?_eq_none_iff.mpr fun k hk => decide_eq_false (h k hk),
    List.findIdx?_cons, decide_eq_true rfl]
  simp

theorem find?_append (h : ∀ k ∈ l, k.index ≠ n.index) :
    (l ++ n :: r).find? (fun k => k.index = n.index) = some n := by
  rw [List.find?_append, List.find?_eq_none.mpr fun k hk => by simpa using h k hk]
  simp

theorem update?_node {f : Node → Node} {way : List Nat} (h : ∀ k ∈ l, k.index ≠ n.index)
    (hn : n.update? f way = some n') :
    (Node.mk c (l ++ n :: r)).update? f (n.index :: way) = some (.mk c (l ++ n' :: r)) := by
  have hget : (l ++ n :: r)[l.length]? = some n := by
    rw [List.getElem?_append_right (Nat.le_refl _), Nat.sub_self, List.getElem?_cons_zero]
  have hset : (l ++ n :: r).set l.length n' = l ++ n' :: r := by
    rw [List.set_append_right _ _ (Nat.le_refl _), Nat.sub_self, List.set_cons_zero]
  rw [Node.update?, position?_append h]
  simp only [Option.bind_eq_bind, Option.bind_some, hget, hn, hset]
  rfl

end Tree

namespace Node

variable {c : Cell} {kids : List Node} {n n' : Node}

/-! ## Ways down from a node -/

theorem follow?_append (way way' : List Nat) (n : Node) :
    n.follow? (way ++ way') = (n.follow? way).bind (follow? way') := by
  induction way generalizing n with
  | nil => rfl
  | cons index way ih =>
    obtain ⟨c, kids⟩ := n
    rw [List.cons_append, follow?, follow?]
    cases kids.find? fun kid => kid.index = index with
    | none => rfl
    | some kid => exact ih kid

theorem exists_of_find? {index : Nat} {kid : Node}
    (h : kids.find? (fun k => k.index = index) = some kid) :
    ∃ l r, kids = l ++ kid :: r ∧ kid.index = index ∧ ∀ k ∈ l, k.index ≠ kid.index := by
  obtain ⟨hi, l, r, rfl, hl⟩ := List.find?_eq_some_iff_append.mp h
  obtain rfl := of_decide_eq_true hi
  exact ⟨l, r, rfl, rfl, fun k hk => by simpa using hl k hk⟩

theorem exists_of_follow?_branch {index : Nat} {kid : Node}
    (h : (Node.mk c kids).follow? [index] = some kid) :
    ∃ l r, kids = l ++ kid :: r ∧ kid.index = index ∧ ∀ k ∈ l, k.index ≠ kid.index := by
  rw [follow?] at h
  obtain ⟨k, hk, e⟩ := Option.bind_eq_some_iff.mp h
  cases e
  exact exists_of_find? hk

theorem exists_of_update?_cons {f : Node → Node} {index : Nat} {way : List Nat}
    (hu : (Node.mk c kids).update? f (index :: way) = some n') :
    ∃ l kid r kid', kids = l ++ kid :: r ∧ kid.index = index ∧ (∀ k ∈ l, k.index ≠ kid.index) ∧
      kid.update? f way = some kid' ∧ n' = .mk c (l ++ kid' :: r) := by
  cases hk : kids.find? fun k => k.index = index with
  | none =>
    have hnone : position? index kids = none := by
      rw [List.find?_eq_none] at hk
      exact List.findIdx?_eq_none_iff.mpr fun k hm => by simpa using hk k hm
    rw [update?, hnone] at hu
    cases hu
  | some kid =>
    obtain ⟨l, r, rfl, rfl, hl⟩ := exists_of_find? hk
    cases hkid : kid.update? f way with
    | none =>
      rw [update?, Tree.position?_append hl] at hu
      simp [hkid] at hu
    | some kid' =>
      rw [Tree.update?_node hl hkid] at hu
      cases hu
      exact ⟨l, kid, r, kid', rfl, rfl, hl, hkid, rfl⟩

theorem exists_update? {f : Node → Node} {way : List Nat} : ∀ {n m : Node},
    n.follow? way = some m → ∃ n', n.update? f way = some n' := by
  induction way with
  | nil => exact fun _ => ⟨_, rfl⟩
  | cons top way ih =>
    rintro ⟨c, kids⟩ m hm
    rw [follow?] at hm
    obtain ⟨kid, hk, hm⟩ := Option.bind_eq_some_iff.mp hm
    obtain ⟨n', hn'⟩ := ih hm
    obtain ⟨l, r, rfl, rfl, hl⟩ := exists_of_find? hk
    exact ⟨_, Tree.update?_node hl hn'⟩

end Node

namespace Tree

variable {t t' : Tree} {c : Cell} {l r : List Node} {n n' m : Node} {f : Node → Node}
  {lineage : List Nat}

/-! ## Lineages -/

theorem atLineage?_eq {way : List Nat} (ht : t.root = some n)
    (hl : lineage.reverse = n.index :: way) : t.atLineage? lineage = n.follow? way := by
  unfold atLineage?
  rw [ht, hl]
  exact if_pos rfl

theorem atLineage?_eq_some (ht : t.root = some n) : t.atLineage? lineage = some m ↔
    ∃ way, lineage.reverse = n.index :: way ∧ n.follow? way = some m := by
  refine ⟨fun h => ?_, fun ⟨way, hl, h⟩ => (atLineage?_eq ht hl).trans h⟩
  unfold atLineage? at h
  rw [ht] at h
  cases hl : lineage.reverse with
  | nil =>
    rw [hl] at h
    cases h
  | cons top way =>
    rw [hl] at h
    change (if n.index = top then n.follow? way else none) = some m at h
    split_ifs at h with htop
    exact ⟨way, htop ▸ rfl, h⟩

/-- A change of the node with a lineage is one of the root, at the end of the way. -/
theorem update?_eq_some (ht : t.root = some n) : t.update? lineage f = some t' ↔
    ∃ way n', lineage.reverse = n.index :: way ∧ n.update? f way = some n' ∧
      t' = { t with root := some n' } := by
  unfold update?
  rw [ht]
  cases hl : lineage.reverse with
  | nil => exact ⟨nofun, fun ⟨_, _, h, _⟩ => nomatch h⟩
  | cons top way =>
    change (if n.index = top then (n.update? f way).bind fun n' => some { t with root := some n' }
      else none) = some t' ↔ _
    constructor
    · intro hu
      split_ifs at hu with htop
      obtain ⟨n', hn', hu⟩ := Option.bind_eq_some_iff.mp hu
      exact ⟨way, n', htop ▸ rfl, hn', (Option.some.inj hu).symm⟩
    · rintro ⟨way, n', hw, hn', rfl⟩
      cases hw
      rw [if_pos rfl, hn']
      rfl

theorem exists_root_of_atLineage? (h : t.atLineage? lineage = some m) : ∃ n, t.root = some n := by
  obtain ⟨n, hn, -⟩ := Option.bind_eq_some_iff.mp h
  exact ⟨n, hn⟩

theorem exists_root_of_update? (h : t.update? lineage f = some t') : ∃ n, t.root = some n := by
  obtain ⟨n, hn, -⟩ := Option.bind_eq_some_iff.mp h
  exact ⟨n, hn⟩

theorem reverse_branch {way : List Nat} (hl : lineage.reverse = n.index :: way) :
    (lineage ++ [c.index]).reverse = (Node.mk c (l ++ n :: r)).index :: n.index :: way := by
  rw [List.reverse_append, List.reverse_singleton, List.singleton_append, hl]
  rfl

theorem atLineage?_within (h : ∀ k ∈ l, k.index ≠ n.index) (ht : t.root = some n)
    (hm : t.atLineage? lineage = some m) :
    (t.within c l n r).atLineage? (lineage ++ [c.index]) = some m := by
  obtain ⟨way, hl, hm⟩ := (atLineage?_eq_some ht).mp hm
  refine (atLineage?_eq_some rfl).mpr ⟨_, reverse_branch hl, ?_⟩
  rw [Node.follow?, find?_append h]
  exact hm

theorem update?_within (h : ∀ k ∈ l, k.index ≠ n.index) (ht : t.root = some n)
    (hu : t.update? lineage f = some t') :
    ∃ n', t'.root = some n' ∧
      (t.within c l n r).update? (lineage ++ [c.index]) f = some (t'.within c l n' r) := by
  obtain ⟨way, n', hl, hn', rfl⟩ := (update?_eq_some ht).mp hu
  exact ⟨n', rfl, (update?_eq_some rfl).mpr ⟨_, _, reverse_branch hl, update?_node h hn', rfl⟩⟩

theorem exists_tree_update? (hm : t.atLineage? lineage = some m) :
    ∃ t', t.update? lineage f = some t' := by
  obtain ⟨n, ht⟩ := exists_root_of_atLineage? hm
  obtain ⟨way, hl, hm⟩ := (atLineage?_eq_some ht).mp hm
  obtain ⟨n', hn'⟩ := Node.exists_update? (f := f) hm
  exact ⟨_, (update?_eq_some ht).mpr ⟨way, n', hl, hn', rfl⟩⟩

theorem exists_above {index : Nat} {above : List Nat} (ha : above ≠ [])
    (hm : t.atLineage? (index :: above) = some m) :
    ∃ p, t.atLineage? above = some p ∧ p.follow? [index] = some m := by
  obtain ⟨n, ht⟩ := exists_root_of_atLineage? hm
  obtain ⟨way, hl, hm⟩ := (atLineage?_eq_some ht).mp hm
  rw [List.reverse_cons] at hl
  cases hla : above.reverse with
  | nil => exact absurd (List.reverse_eq_nil_iff.mp hla) ha
  | cons top way' =>
    rw [hla, List.cons_append] at hl
    obtain ⟨rfl, rfl⟩ := List.cons.inj hl
    rw [Node.follow?_append] at hm
    obtain ⟨p, hp, hm⟩ := Option.bind_eq_some_iff.mp hm
    exact ⟨p, (atLineage?_eq ht hla).trans hp, hm⟩

theorem eq_of_update? (hu : t.update? lineage f = some t') :
    ∃ n', t' = { t with root := some n' } := by
  obtain ⟨n, ht⟩ := exists_root_of_update? hu
  obtain ⟨way, n', -, -, rfl⟩ := (update?_eq_some ht).mp hu
  exact ⟨n', rfl⟩

/-! ## Edits of a branch -/

end Tree

/-- The edit below further nodes. -/
def Edit.below (above : List Nat) : Edit → Edit
  | touch lineage => touch (lineage ++ above)
  | remove lineage => remove (lineage ++ above)
  | graft lineage branch => graft (lineage ++ above) branch

theorem Edit.below_below (above above' : List Nat) (e : Edit) :
    (e.below above).below above' = e.below (above ++ above') := by
  cases e <;> simp only [below, List.append_assoc]

namespace Tree

variable {t t' : Tree} {s : Sentence} {c : Cell} {l r : List Node} {n n' : Node}

theorem changeAt_ok {lineage : List Nat} {f : Node → Node} :
    changeAt lineage f t = .ok () t' ↔ t.update? lineage f = some t' := by
  unfold changeAt
  rw [Routine.get_bind]
  cases t.update? lineage f with
  | none => exact ⟨nofun, nofun⟩
  | some t₁ => exact ⟨fun h => by cases h; rfl, fun h => by cases h; rfl⟩

/-- The tree after the slots of a node were freed. -/
def freed (t : Tree) (slots : List Nat) : Tree :=
  { t with
    free := slots.reverse ++ t.free
    wasSubstantial := slots.foldl (·.erase ·) t.wasSubstantial
    substantial := slots.foldl (·.erase ·) t.substantial }

/-- The tree after slots were taken. -/
def taken (t : Tree) (k : Nat) : Tree :=
  { t with free := t.free.drop k, slots := t.slots + (k - t.free.length) }

theorem removeAt_ok {index : Nat} {above : List Nat} {m : Node} {t₁ : Tree} (ha : above ≠ [])
    (hm : t.atLineage? (index :: above) = some m)
    (hu : t.update? above (Node.prune index) = some t₁) :
    removeAt (index :: above) t = .ok () (t₁.freed m.slots) := by
  obtain ⟨n₁, rfl⟩ := eq_of_update? hu
  have he : above.isEmpty = false := List.isEmpty_eq_false_iff.mpr ha
  have hu' : t.update above (fun parent => parent.prune index) = { t with root := some n₁ } := by
    unfold update
    rw [show (fun parent : Node => parent.prune index) = Node.prune index from rfl, hu]
    rfl
  unfold removeAt
  rw [Routine.get_bind, hm]
  simp only [he, Bool.false_eq_true, if_false]
  rw [hu']
  rfl

theorem exists_of_removeAt {lineage : List Nat} (h : removeAt lineage t = .ok () t')
    (ht' : t'.root = some n') : ∃ index above m t₁, lineage = index :: above ∧ above ≠ [] ∧
      t.atLineage? (index :: above) = some m ∧
      t.update? above (Node.prune index) = some t₁ ∧ t' = t₁.freed m.slots := by
  cases lineage with
  | nil =>
    unfold removeAt at h
    rw [Routine.get_bind] at h
    cases hm : t.atLineage? [] <;> rw [hm] at h <;> cases h
  | cons index above =>
    cases hm : t.atLineage? (index :: above) with
    | none =>
      unfold removeAt at h
      rw [Routine.get_bind, hm] at h
      cases h
    | some m =>
      have ha : above ≠ [] := by
        rintro rfl
        unfold removeAt at h
        rw [Routine.get_bind, hm] at h
        cases h
        cases ht'
      obtain ⟨m', hm', -⟩ := exists_above ha hm
      obtain ⟨t₁, ht₁⟩ := exists_tree_update? (f := Node.prune index) hm'
      rw [removeAt_ok ha hm ht₁] at h
      cases h
      exact ⟨index, above, m, t₁, rfl, ha, hm, ht₁, rfl⟩

/-- A graft below a node: the fragment is known to the sentence, and takes the next slots. -/
theorem edit_graft_ok {lineage : List Nat} {branch : Fragment} :
    edit s (.graft lineage branch) t = .ok () t' ↔
      (t.atLineage? lineage).isSome = true ∧
      (branch.formulas.find? fun f => s.nodes.length ≤ f) = none ∧
      (t.taken branch.size).update? lineage
        (fun node => node.graft (branch.place (t.nextSlots branch.size)).1) = some t' := by
  unfold edit
  rw [Routine.bind_eq_ok]
  unfold graftAt
  simp only [Routine.get_bind]
  cases hm : t.atLineage? lineage with
  | none => exact ⟨fun ⟨_, _, h, _⟩ => (nomatch h), fun ⟨h, _⟩ => (nomatch h)⟩
  | some m =>
    cases hf : branch.formulas.find? fun f => s.nodes.length ≤ f with
    | some f => exact ⟨fun ⟨_, _, h, _⟩ => (nomatch h), fun ⟨_, h, _⟩ => (nomatch h)⟩
    | none =>
      obtain ⟨t₁, hu⟩ := exists_tree_update? (t := t.taken branch.size)
        (f := fun node => node.graft (branch.place (t.nextSlots branch.size)).1) hm
      have hu' : (t.taken branch.size).update lineage
          (fun node => node.graft (branch.place (t.nextSlots branch.size)).1) = t₁ := by
        unfold update
        rw [hu]
        rfl
      unfold taken at hu'
      simp only [Option.isNone_some, Bool.false_eq_true, if_false, hu', hu, Option.isSome_some,
        Option.some.injEq, true_and]
      constructor
      · rintro ⟨_, _, h₁, h₂⟩
        cases h₁
        cases h₂
        rfl
      · rintro rfl
        exact ⟨_, _, rfl, rfl⟩

/-- **An edit of a branch** does to the branch what it does to the branch alone. -/
theorem edit_within {e : Edit} (h : ∀ k ∈ l, k.index ≠ n.index) (ht : t.root = some n)
    (ht' : t'.root = some n') (he : edit s e t = .ok () t') :
    edit s (e.below [c.index]) (t.within c l n r) = .ok () (t'.within c l n' r) := by
  cases e with
  | touch lineage =>
    obtain ⟨n₁, hn₁, hu⟩ := update?_within (c := c) (r := r) h ht (changeAt_ok.mp he)
    rw [ht'] at hn₁
    cases hn₁
    exact changeAt_ok.mpr hu
  | remove lineage =>
    obtain ⟨index, above, m, t₁, rfl, ha, hm, hu, rfl⟩ := exists_of_removeAt he ht'
    obtain ⟨n₁, hn₁, hu'⟩ := update?_within (c := c) (r := r) h ht hu
    have hn : n₁ = n' := by
      rw [← Option.some.injEq, ← hn₁]
      exact ht'
    subst hn
    exact removeAt_ok (by simp) (atLineage?_within h ht hm) hu'
  | graft lineage branch =>
    obtain ⟨hm, hf, hu⟩ := edit_graft_ok.mp he
    obtain ⟨m, hm⟩ := Option.isSome_iff_exists.mp hm
    obtain ⟨n₁, hn₁, hu'⟩ :=
      update?_within (t := t.taken branch.size) (c := c) (r := r) h ht hu
    rw [ht'] at hn₁
    cases hn₁
    refine edit_graft_ok.mpr ⟨?_, hf, hu'⟩
    rw [atLineage?_within h ht hm, Option.isSome_some]

theorem update?_index {lineage : List Nat} {f : Node → Node} (hf : ∀ m, (f m).index = m.index)
    (hu : t.update? lineage f = some t') (ht : t.root = some n) (ht' : t'.root = some n') :
    n'.index = n.index := by
  obtain ⟨way, n₁, -, hn₁, rfl⟩ := (update?_eq_some ht).mp hu
  cases ht'
  cases way with
  | nil =>
    cases hn₁
    exact hf n
  | cons top way =>
    obtain ⟨c, kids⟩ := n
    obtain ⟨l, kid, r, kid', -, -, -, -, rfl⟩ := Node.exists_of_update?_cons hn₁
    rfl

theorem index_prune (index : Nat) (m : Node) : (m.prune index).index = m.index := by
  obtain ⟨c, kids⟩ := m
  rw [Node.prune]
  split <;> rfl

theorem index_graft (branch m : Node) : (m.graft branch).index = m.index := by
  obtain ⟨c, kids⟩ := m
  rfl

theorem index_touch (m : Node) : m.touch.index = m.index := by
  obtain ⟨c, kids⟩ := m
  rfl

theorem edit_index {e : Edit} (ht : t.root = some n) (ht' : t'.root = some n')
    (he : edit s e t = .ok () t') : n'.index = n.index := by
  cases e with
  | touch lineage => exact update?_index index_touch (changeAt_ok.mp he) ht ht'
  | remove lineage =>
    obtain ⟨index, above, m, t₁, rfl, -, -, hu, rfl⟩ := exists_of_removeAt he ht'
    exact update?_index (index_prune index) hu ht ht'
  | graft lineage branch =>
    obtain ⟨-, -, hu⟩ := edit_graft_ok.mp he
    exact update?_index (t := t.taken branch.size) (index_graft _) hu ht ht'

/-! ## Edits in a row -/

/-- The edits succeed in a row, and the tree keeps its root at each step. -/
inductive Runs (s : Sentence) : List Edit → Tree → Tree → Prop
  | nil (t : Tree) : Runs s [] t t
  | cons {e : Edit} {es : List Edit} {t t₁ t' : Tree} (he : edit s e t = .ok () t₁)
      (hr : t₁.root.isSome = true) (hs : Runs s es t₁ t') : Runs s (e :: es) t t'

theorem Runs.editAll {es : List Edit} (h : Runs s es t t') : editAll s es t = .ok () t' := by
  induction h with
  | nil t => rfl
  | cons he _ _ ih => rw [Tree.editAll, Routine.bind_ok he, ih]

theorem Runs.append {es es' : List Edit} {t₁ : Tree} (h : Runs s es t t₁)
    (h' : Runs s es' t₁ t') : Runs s (es ++ es') t t' := by
  induction h with
  | nil t => exact h'
  | cons he hr _ ih => exact .cons he hr (ih h')

/-- **Edits of a branch** do to the branch what they do to the branch alone. -/
theorem Runs.within {es : List Edit} (hs : Runs s es t t') : ∀ {n n' : Node},
    t.root = some n → t'.root = some n' → (∀ k ∈ l, k.index ≠ n.index) →
    Runs s (es.map (Edit.below [c.index])) (t.within c l n r) (t'.within c l n' r) ∧
      n'.index = n.index := by
  induction hs with
  | nil t =>
    intro n n' ht ht' h
    rw [ht] at ht'
    cases ht'
    exact ⟨.nil _, rfl⟩
  | cons he hr _ ih =>
    intro n n' ht ht' h
    obtain ⟨n₁, hn₁⟩ := Option.isSome_iff_exists.mp hr
    have hi := edit_index ht hn₁ he
    obtain ⟨hrun, hi'⟩ := ih hn₁ ht' (hi ▸ h)
    exact ⟨.cons (edit_within h ht hn₁ he) rfl hrun, hi'.trans hi⟩

/-! ## Edits at the root -/

theorem update?_root (f : Node → Node) (ht : t.root = some n) :
    t.update? [n.index] f = some { t with root := some (f n) } :=
  (update?_eq_some ht).mpr ⟨[], f n, rfl, rfl, rfl⟩

theorem atLineage?_root (ht : t.root = some n) : t.atLineage? [n.index] = some n :=
  (atLineage?_eq_some ht).mpr ⟨[], rfl, rfl⟩

theorem touch_root (ht : t.root = some n) :
    edit s (.touch [n.index]) t = .ok () { t with root := some n.touch } :=
  changeAt_ok.mpr (update?_root _ ht)

theorem prune_append {kid : Node} (h : ∀ k ∈ l, k.index ≠ kid.index) :
    (Node.mk c (l ++ kid :: r)).prune kid.index =
      .mk (c.forget (l ++ kid :: r).length l.length kid.cell.bound) (l ++ r) := by
  rw [Node.prune, position?_append h]
  simp [Lists.eraseIdx_middle]

theorem atLineage?_branch {kid : Node} (ht : t.root = some (.mk c (l ++ kid :: r)))
    (h : ∀ k ∈ l, k.index ≠ kid.index) : t.atLineage? [kid.index, c.index] = some kid := by
  refine (atLineage?_eq_some ht).mpr ⟨[kid.index], rfl, ?_⟩
  rw [Node.follow?, find?_append h]
  rfl

theorem remove_branch {kid : Node} (ht : t.root = some (.mk c (l ++ kid :: r)))
    (h : ∀ k ∈ l, k.index ≠ kid.index) :
    edit s (.remove [kid.index, c.index]) t = .ok () (freed { t with
      root := some (.mk (c.forget (l ++ kid :: r).length l.length kid.cell.bound) (l ++ r)) }
        kid.slots) := by
  have hu := update?_root (Node.prune kid.index) ht
  rw [prune_append h] at hu
  exact removeAt_ok (List.cons_ne_nil _ _) (atLineage?_branch ht h) hu

theorem graft_branch {branch : Fragment} (ht : t.root = some n)
    (hb : ∀ f ∈ branch.formulas, f < s.nodes.length) :
    edit s (.graft [n.index] branch) t = .ok () { t.taken branch.size with
      root := some (n.graft (branch.place (t.nextSlots branch.size)).1) } := by
  refine edit_graft_ok.mpr ⟨?_, ?_, update?_root (t := t.taken branch.size) _ ht⟩
  · rw [atLineage?_root ht, Option.isSome_some]
  · refine List.find?_eq_none.mpr fun f hf => ?_
    have := hb f hf
    simpa using this

end Tree

end RuleMonitor
