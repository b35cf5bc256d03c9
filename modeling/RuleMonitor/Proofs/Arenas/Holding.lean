import RuleMonitor.Proofs.Arenas.Slots

/-!
# Arenas that hold an instantiation

An arena holds an instantiation if each node stands in its slot, below the slot of the node above it,
and if the tables say what can be read off the nodes. The operations on arenas then do what those on
instantiations do, with the same answers and the same failures, and the arena holds the instantiation
that results.

* `Arena.Carries`: an arena that carries the nodes of an instantiation;
  `Arena.Carries.mem_indices_iff`: its live slots.
* `Arena.Holds`: an arena that holds an instantiation; **`Arena.Holds.tree_eq`**: the instantiation is
  read off it.
* `Routine.Simulates`: computations with the same answers and failures, from states that correspond.
* **`Arena.Holds.update`**, `Arena.Holds.map`: a node that changes with what is below it, and all nodes.
* **`Arena.simulates_change`**, `Arena.simulates_alter`: the change of one cell.
-/

namespace RuleMonitor

open Std (ExtTreeMap ExtTreeSet)

/-! ## Computations that correspond -/

namespace Routine

variable {σ τ α β : Type} {R : σ → τ → Prop}

/-- The same answer or the same failure, with states that correspond. -/
inductive Alike (R : σ → τ → Prop) : EStateM.Result Failure σ α → EStateM.Result Failure τ α → Prop
  | ok {v : α} {s : σ} {t : τ} (h : R s t) : Alike R (.ok v s) (.ok v t)
  | error {e : Failure} {s : σ} {t : τ} (h : R s t) : Alike R (.error e s) (.error e t)

/-- From states that correspond, two computations end alike. -/
def Simulates (R : σ → τ → Prop) (x : Routine σ α) (y : Routine τ α) : Prop :=
  ∀ s t, R s t → Alike R (x s) (y t)

theorem Alike.bind {x : Routine σ α} {y : Routine τ α} {f : α → Routine σ β} {g : α → Routine τ β} {s : σ}
    {t : τ} (h : Alike R (x s) (y t)) (hfg : ∀ v, Simulates R (f v) (g v)) :
    Alike R ((x >>= f) s) ((y >>= g) t) := by
  cases hx : x s with
  | ok v s' =>
    cases hy : y t with
    | ok v' t' =>
      rw [hx, hy] at h
      cases h with
      | ok h =>
        rw [bind_ok hx, bind_ok hy]
        exact hfg v _ _ h
    | error e t' =>
      rw [hx, hy] at h
      cases h
  | error e s' =>
    cases hy : y t with
    | ok v' t' =>
      rw [hx, hy] at h
      cases h
    | error e' t' =>
      rw [hx, hy] at h
      cases h with
      | error h =>
        rw [bind_error hx, bind_error hy]
        exact .error h

theorem Simulates.bind {x : Routine σ α} {y : Routine τ α} {f : α → Routine σ β} {g : α → Routine τ β}
    (h : Simulates R x y) (hfg : ∀ v, Simulates R (f v) (g v)) : Simulates R (x >>= f) (y >>= g) :=
  fun s t hst => (h s t hst).bind hfg

theorem Simulates.forM {f : β → Routine σ PUnit} {g : β → Routine τ PUnit} {l : List β}
    (h : ∀ b ∈ l, Simulates R (f b) (g b)) : Simulates R (l.forM f) (l.forM g) := by
  induction l with
  | nil => exact fun s t hst => .ok hst
  | cons b l ih =>
    rw [List.forall_mem_cons] at h
    exact h.1.bind fun _ => ih h.2

theorem Alike.after {x : Routine σ α} {y : Routine τ α} {s : σ} {t : τ} (h : Alike R (x s) (y t)) :
    R (x.after s) (y.after t) := by
  cases hx : x s <;> cases hy : y t <;> rw [hx, hy] at h <;> cases h <;>
    simpa only [Routine.after, hx, hy]

end Routine

/-! ## Slots of an instantiation -/

namespace Tree

variable {t t' : Tree} {n m : Node} {i : Nat} {f : Node → Node} {lineage : List Nat}

/-- The slots of the nodes, in pre-order. -/
def indices (t : Tree) : List Nat :=
  t.cells.map (·.index)

theorem indices_of_root (ht : t.root = some n) : t.indices = n.indices := by
  rw [indices, cells, ht]
  rfl

theorem indices_of_empty (ht : t.root = none) : t.indices = [] := by
  rw [indices, cells, ht]
  rfl

theorem exists_root_of_mem (hi : i ∈ t.indices) : ∃ n, t.root = some n ∧ i ∈ n.indices := by
  cases ht : t.root with
  | none =>
    rw [indices_of_empty ht] at hi
    cases hi
  | some n => exact ⟨n, rfl, indices_of_root ht ▸ hi⟩

/-- **The lineage of a node** is found from its slot. -/
theorem lineage_of_atLineage? (hd : t.indices.Nodup) (hm : t.atLineage? lineage = some m) :
    Tree.lineage m.index t = .ok lineage t := by
  obtain ⟨n, ht⟩ := exists_root_of_atLineage? hm
  obtain ⟨way, hway, hm⟩ := (atLineage?_eq_some ht).mp hm
  have hfound := Node.lineage?_of_follow? (indices_of_root ht ▸ hd) hm []
  rw [← hway, List.reverse_reverse, List.append_nil] at hfound
  unfold Tree.lineage
  rw [Routine.get_bind, ht, Option.bind_some, hfound]
  rfl

/-- **The lineage of a slot** leads to its node. -/
theorem exists_lineage (hd : t.indices.Nodup) (hi : i ∈ t.indices) : ∃ above m,
    Tree.lineage i t = .ok (i :: above) t ∧ t.atLineage? (i :: above) = some m ∧ m.index = i := by
  obtain ⟨n, ht, hin⟩ := exists_root_of_mem hi
  obtain ⟨way, m, hway, rfl⟩ := Node.exists_way (indices_of_root ht ▸ hd) hin
  obtain ⟨top, above, htop⟩ : ∃ top above, (n.index :: way).reverse = top :: above :=
    List.exists_cons_of_ne_nil (by simp)
  have hat : t.atLineage? (top :: above) = some m :=
    (atLineage?_eq_some ht).mpr ⟨way, by rw [← htop, List.reverse_reverse], hway⟩
  obtain rfl : top = m.index := (index_eq_of_atLineage? hat).symm
  exact ⟨above, m, lineage_of_atLineage? hd hat, hat, rfl⟩

theorem lineage_error (hi : i ∉ t.indices) : Tree.lineage i t = .error (notLive i) t := by
  have hnone : (t.root.bind fun root => root.lineage? i []) = none := by
    cases ht : t.root with
    | none => rfl
    | some n => exact Node.lineage?_eq_none n [] (indices_of_root ht ▸ hi)
  unfold Tree.lineage
  rw [Routine.get_bind, hnone]
  rfl

/-- A change of a node that keeps the slots below it keeps the slots of all nodes. -/
theorem indices_update? (hu : t.update? lineage f = some t') (hm : t.atLineage? lineage = some m)
    (hf : (f m).indices.Perm m.indices) : t'.indices.Perm t.indices := by
  obtain ⟨n, ht⟩ := exists_root_of_update? hu
  obtain ⟨way, n', hway, hn', rfl⟩ := exists_of_update? hu ht
  obtain ⟨p, rest, hp, h, h'⟩ := Node.indices_of_update? hn'
  rw [← hway, hm] at hp
  cases hp
  rw [indices_of_root ht, indices_of_root (t := { t with root := some n' }) rfl]
  exact h'.trans ((hf.append_right rest).trans h.symm)

theorem update_nil (t : Tree) (f : Node → Node) : t.update [] f = t := by
  unfold update update?
  cases t.root <;> rfl

theorem exists_atLineage?_of_update? {above : List Nat} {p : Node} (hf : ∀ m, (f m).index = m.index)
    (hu : t.update? (i :: above) f = some t') (hp : t.atLineage? above = some p) :
    ∃ p', t'.atLineage? above = some p' ∧ p'.index = p.index := by
  obtain ⟨n, ht⟩ := exists_root_of_update? hu
  obtain ⟨way, n', hway, hn', rfl⟩ := (update?_eq_some ht).mp hu
  obtain ⟨way', hway', hp⟩ := (atLineage?_eq_some ht).mp hp
  rw [List.reverse_cons, hway', List.cons_append, List.cons.injEq] at hway
  obtain rfl := hway.2
  obtain ⟨p', hp', hindex⟩ := Node.exists_follow?_of_update? hf hn' hp
  have hslot : n'.index = n.index := Node.index_update? (fun k _ => hf k) hn'
  exact ⟨p', (atLineage?_eq_some (t := { t with root := some n' }) rfl).mpr ⟨way', hslot ▸ hway', hp'⟩, hindex⟩

theorem nodup_of_atLineage? (hd : t.indices.Nodup) (hm : t.atLineage? lineage = some m) :
    m.indices.Nodup := by
  obtain ⟨n, ht⟩ := exists_root_of_atLineage? hm
  obtain ⟨way, -, hway⟩ := (atLineage?_eq_some ht).mp hm
  exact Node.nodup_indices_of_mem (indices_of_root ht ▸ hd) (Node.mem_of_follow? hway)

end Tree

/-! ## Arenas with an instantiation -/

namespace Arena

variable {s : Sentence} {a a' : Arena} {t t' : Tree} {n m : Node} {i : Nat} {f : Node → Node}
  {lineage : List Nat}

/-- An arena carries the nodes of an instantiation. -/
structure Carries (s : Sentence) (a : Arena) (t : Tree) : Prop where
  root : a.root = t.root.map Node.index
  length : a.nodes.length = t.slots
  free : a.free = t.free
  /-- Each node stands in its slot. -/
  nodes : ∀ n, t.root = some n → n.Everywhere (a.Has s) none
  /-- In the other slots there is nothing. -/
  vacant : ∀ i, i ∉ t.indices → a.Vacant i
  full : t.Owns t.indices

/-- An arena holds an instantiation: it carries the nodes, and says which of them are substantial. -/
structure Holds (s : Sentence) (a : Arena) (t : Tree) : Prop extends Carries s a t where
  was : a.wasSubstantial = t.wasSubstantial
  now : a.substantial = t.substantial
  /-- Only nodes are substantial. -/
  marked : ∀ i, i ∈ t.wasSubstantial ∨ i ∈ t.substantial → i ∈ t.indices

namespace Carries

variable (h : Carries s a t)

include h

theorem nodup : t.indices.Nodup :=
  h.full.nodup

theorem exists_has (hi : i ∈ t.indices) : ∃ p c ks, c ∈ t.cells ∧ c.index = i ∧ a.Has s p c ks := by
  obtain ⟨n, ht, hin⟩ := Tree.exists_root_of_mem hi
  obtain ⟨m, hm, rfl⟩ := Node.exists_of_mem_indices hin
  obtain ⟨p, hp⟩ := (h.nodes n ht).of_mem_subtrees hm
  refine ⟨p, m.cell, _, ?_, rfl, hp.root⟩
  rw [Tree.cells, ht]
  exact Node.cell_mem_cells_of_mem hm

/-- **The live slots** are those of the nodes. -/
theorem mem_indices_iff : i ∈ t.indices ↔ ∃ r, a.node? i = some r := by
  constructor
  · intro hi
    obtain ⟨p, c, ks, -, rfl, hhas⟩ := h.exists_has hi
    exact ⟨_, hhas.node⟩
  · rintro ⟨r, hr⟩
    by_contra hi
    cases (h.vacant i hi).node.symm.trans hr

theorem everywhere_of_atLineage? (hm : t.atLineage? lineage = some m) :
    ∃ p, m.Everywhere (a.Has s) p := by
  obtain ⟨n, ht⟩ := Tree.exists_root_of_atLineage? hm
  obtain ⟨way, -, hway⟩ := (Tree.atLineage?_eq_some ht).mp hm
  exact (h.nodes n ht).of_mem_subtrees (Node.mem_of_follow? hway)

/-- A node is the root, or a branch of the node above it in its lineage. -/
theorem exists_parent {above : List Nat} (hm : t.atLineage? (i :: above) = some m) :
    above = [] ∧ t.root = some m ∧ m.Everywhere (a.Has s) none ∨
      above ≠ [] ∧ ∃ p, t.atLineage? above = some p ∧ p.follow? [i] = some m ∧
        m.Everywhere (a.Has s) (some p.index) := by
  by_cases habove : above = []
  · subst habove
    obtain ⟨n, ht⟩ := Tree.exists_root_of_atLineage? hm
    obtain ⟨way, hway, hn⟩ := (Tree.atLineage?_eq_some ht).mp hm
    cases hway
    cases hn
    exact .inl ⟨rfl, ht, h.nodes _ ht⟩
  · obtain ⟨p, hp, hbranch⟩ := Tree.exists_above habove hm
    obtain ⟨q, hq⟩ := h.everywhere_of_atLineage? hp
    refine .inr ⟨habove, p, hp, hbranch, ?_⟩
    obtain ⟨c, kids⟩ := p
    obtain ⟨l, r, rfl, rfl, hl⟩ := Node.exists_of_follow?_branch hbranch
    rw [Node.follow?, Tree.find?_append hl] at hbranch
    cases hbranch
    exact (Node.everywhere_mk.mp hq).2 _ (List.mem_append_right _ List.mem_cons_self)

theorem length_indices_le : t.indices.length ≤ a.nodes.length := by
  have hlength := h.full.length_eq
  rw [List.length_append, List.length_range, ← h.length] at hlength
  omega

/-- **The slots below a node.** -/
theorem subtree_eq (hm : t.atLineage? lineage = some m) : a.subtree m.index = .ok m.indices := by
  obtain ⟨p, hp⟩ := h.everywhere_of_atLineage? hm
  obtain ⟨n, ht⟩ := Tree.exists_root_of_atLineage? hm
  obtain ⟨way, -, hway⟩ := (Tree.atLineage?_eq_some ht).mp hm
  have hsub : m.indices ⊆ t.indices := by
    rw [Tree.indices_of_root ht]
    exact Node.indices_subset_of_mem (Node.mem_of_follow? hway)
  have hle := (List.subperm_of_subset (Tree.nodup_of_atLineage? h.nodup hm) hsub).length_le
  have hslots := h.length_indices_le
  have hempty : a.walk (a.nodes.length + 1 - m.indices.length) [] = .ok [] := by rw [walk]
  have hwalk := walk_node hp hempty
  rwa [Nat.sub_add_cancel (by omega), List.append_nil] at hwalk

theorem exists_entry {r : Record} (hr : a.node? i = some r) : ∃ n q m, t.root = some n ∧
    (q, m) ∈ n.descent none ∧ m.index = i ∧ r = m.cell.record q (m.kids.map Node.index) := by
  obtain ⟨n, ht, hi⟩ := Tree.exists_root_of_mem (h.mem_indices_iff.mpr ⟨r, hr⟩)
  obtain ⟨q, m, hm, rfl⟩ := Node.exists_mem_descent hi none
  have hhas : a.node? m.index = some _ := (h.nodes n ht _ hm).node
  exact ⟨n, q, m, ht, hm, rfl, Option.some.inj (hr.symm.trans hhas)⟩

/-- **The table of quantifiers** has those that quantify over a pattern. -/
theorem mem_quantifiersOver_iff {pattern : String} :
    i ∈ a.quantifiersOver pattern ↔ ∃ r, a.node? i = some r ∧ s.patternAt? r.formula = some pattern := by
  by_cases hi : i ∈ t.indices
  · obtain ⟨q, c, ks, -, rfl, hhas⟩ := h.exists_has hi
    rw [hhas.quantified, hhas.node]
    simp [Cell.record]
  · have hvacant := h.vacant i hi
    refine iff_of_false (hvacant.quantified pattern) ?_
    rintro ⟨r, hr, -⟩
    cases hvacant.node.symm.trans hr

end Carries

theorem Holds.empty (s : Sentence) : Holds s {} {} where
  root := rfl
  length := rfl
  free := rfl
  was := rfl
  now := rfl
  nodes := nofun
  vacant _ _ := ⟨rfl, ExtTreeSet.not_mem_empty, fun _ => ExtTreeSet.not_mem_empty⟩
  full := .refl _
  marked _ h := h.elim (absurd · ExtTreeSet.not_mem_empty) (absurd · ExtTreeSet.not_mem_empty)

/-- **The instantiation is read off the arena.** -/
theorem Holds.tree_eq (h : Holds s a t) : a.tree = t := by
  have hroot : a.root.bind (a.read a.nodes.length) = t.root := by
    rw [h.root]
    cases ht : t.root with
    | none => rfl
    | some n => exact read_node (h.nodes n ht) (Tree.indices_of_root ht ▸ h.length_indices_le)
  unfold Arena.tree
  rw [hroot, h.free, h.length, h.was, h.now]

/-! ## Changes that keep the slots -/

/-- Only nodes change, and what the tables say of them. -/
structure Rewritten (a a' : Arena) : Prop where
  root : a'.root = a.root
  length : a'.nodes.length = a.nodes.length
  free : a'.free = a.free
  was : a'.wasSubstantial = a.wasSubstantial
  now : a'.substantial = a.substantial

theorem Rewritten.trans {a₁ : Arena} (h : a.Rewritten a₁) (h' : a₁.Rewritten a') : a.Rewritten a' :=
  ⟨h'.root.trans h.root, h'.length.trans h.length, h'.free.trans h.free, h'.was.trans h.was,
    h'.now.trans h.now⟩

theorem rewritten_amend (a : Arena) (i : Nat) (g : Record → Record) : a.Rewritten (a.amend i g) :=
  ⟨rfl, List.length_modify _ _ _, rfl, rfl, rfl⟩

theorem Has.amend {p : Option Nat} {c c' : Cell} {ks ks' : List Nat} {g : Record → Record}
    (hhas : a.Has s p c ks) (hindex : c'.index = c.index) (hformula : c'.formula = c.formula)
    (hpending : c'.pending = c.pending) (hg : g (c.record p ks) = c'.record p ks') :
    (a.amend c.index g).Has s p c' ks' where
  node := by rw [node?_amend, hindex, if_pos rfl, hhas.node, Option.map_some, hg]
  staged := by
    rw [hindex, hpending]
    exact hhas.staged
  quantified := by
    rw [hindex, hformula]
    exact hhas.quantified

/-- **A node is changed**, with what is below it. -/
theorem Holds.update (h : Holds s a t) (hm : t.atLineage? lineage = some m)
    (hu : t.update? lineage f = some t') (hindex : (f m).index = m.index)
    (hperm : (f m).indices.Perm m.indices) (hw : a.Rewritten a')
    (hsame : ∀ j, j ∉ m.indices → a.Same a' j)
    (hf : ∀ p, m.Everywhere (a.Has s) p → (f m).Everywhere (a'.Has s) p) : Holds s a' t' := by
  have hindices := Tree.indices_update? hu hm hperm
  obtain ⟨n, ht⟩ := Tree.exists_root_of_update? hu
  obtain ⟨way, n', hway, hn', rfl⟩ := Tree.exists_of_update? hu ht
  rw [hm] at hway
  have hsub : m.indices ⊆ t.indices := by
    rw [Tree.indices_of_root ht]
    exact Node.indices_subset_of_mem (Node.mem_of_follow? hway.symm)
  have hd : n.indices.Nodup := Tree.indices_of_root ht ▸ h.nodup
  refine ⟨⟨?_, hw.length.trans h.length, hw.free.trans h.free, ?_, fun i hi => ?_,
    (hindices.append_right _).trans h.full⟩, hw.was.trans h.was, hw.now.trans h.now,
    fun i hi => hindices.symm.subset (h.marked i hi)⟩
  · have hslot : n'.index = n.index := Node.index_update? (fun m' hm' => by
      cases hway.trans hm'
      exact hindex) hn'
    rw [hw.root, h.root, ht]
    exact congrArg some hslot.symm
  · intro n₁ hn₁
    cases hn₁
    exact (h.nodes n ht).update? hd hn' hway.symm hindex hf fun p c ks _ hc hhas =>
      hhas.same (hsame _ hc)
  · have hi' : i ∉ t.indices := fun hmem => hi (hindices.symm.subset hmem)
    exact (h.vacant i hi').same (hsame i fun hmem => hi' (hsub hmem))

/-- **All nodes are changed**, each in its slot. -/
theorem Holds.map {g : Cell → Cell} (h : Holds s a t) (hindex : ∀ c, (g c).index = c.index)
    (hw : a.Rewritten a') (hhas : ∀ p c ks, a.Has s p c ks → a'.Has s p (g c) ks)
    (hvacant : ∀ i, a.Vacant i → a'.Vacant i) : Holds s a' (t.mapRoot (·.map g)) := by
  have hindices : (t.mapRoot (·.map g)).indices = t.indices := by
    cases ht : t.root with
    | none => rw [Tree.indices_of_empty ht, Tree.indices_of_empty (by rw [Tree.mapRoot, ht]; rfl)]
    | some n =>
      have ht' : (t.mapRoot (·.map g)).root = some (n.map g) := by
        rw [Tree.mapRoot, ht]
        rfl
      rw [Tree.indices_of_root ht, Tree.indices_of_root ht', Node.indices, Node.cells_map, List.map_map]
      exact List.map_congr_left fun c _ => hindex c
  refine ⟨⟨?_, hw.length.trans h.length, hw.free.trans h.free, ?_,
    fun i hi => hvacant i (h.vacant i (hindices ▸ hi)), ?_⟩, hw.was.trans h.was, hw.now.trans h.now,
    fun i hi => hindices ▸ h.marked i hi⟩
  · rw [hw.root, h.root, Tree.mapRoot, Option.map_map]
    refine congrFun (congrArg _ (funext fun n => ?_)) _
    rw [Function.comp_apply, Node.index, Node.index, Node.cell_map, hindex]
  · intro n' hn'
    obtain ⟨n, ht, rfl⟩ := Option.map_eq_some_iff.mp hn'
    exact (h.nodes n ht).onCells hindex fun p c ks _ => hhas p c ks
  · unfold Tree.Owns
    rw [hindices]
    exact h.full

/-- **Other nodes are substantial**. -/
theorem Holds.mark (h : Holds s a t) {was was' now now' : ExtTreeSet Nat} (hwas : was = was')
    (hnow : now = now') (hmarked : ∀ i, i ∈ was' ∨ i ∈ now' → i ∈ t.indices) :
    Holds s { a with wasSubstantial := was, substantial := now }
      { t with wasSubstantial := was', substantial := now' } where
  root := h.root
  length := h.length
  free := h.free
  was := hwas
  now := hnow
  nodes n ht := (h.nodes n ht).imp fun _ _ _ _ hhas => ⟨hhas.node, hhas.staged, hhas.quantified⟩
  vacant i hi := ⟨(h.vacant i hi).node, (h.vacant i hi).staged, (h.vacant i hi).quantified⟩
  full := h.full
  marked := hmarked

/-! ## One node -/

/-- An arena holds an instantiation that has nodes in some slots. -/
def HoldsWith (s : Sentence) (slots : List Nat) (a : Arena) (t : Tree) : Prop :=
  Holds s a t ∧ slots ⊆ t.indices

variable {slots : List Nat} {x : Routine Arena Unit} {h : Cell → Cell} {g : Record → Record}

theorem Holds.change (ha : Holds s a t) (hm : t.atLineage? lineage = some m)
    (hu : t.update? lineage (Node.onCell h) = some t') (hindex : ∀ c, (h c).index = c.index)
    (hw : a.Rewritten a') (hsame : ∀ j, j ≠ m.index → a.Same a' j)
    (hhas : ∀ p ks, a.Has s p m.cell ks → a'.Has s p (h m.cell) ks) : Holds s a' t' := by
  have hperm : (Node.onCell h m).indices.Perm m.indices := by rw [Node.indices_onCell hindex]
  refine ha.update hm hu (Node.index_onCell hindex m) hperm hw (fun j hj => ?_) fun p hp => ?_
  · exact hsame j fun e => hj (e ▸ m.index_mem_indices)
  · exact hp.onCell (Tree.nodup_of_atLineage? ha.nodup hm) hindex (hhas p _ hp.root) fun q c ks hne hc =>
      hc.same (hsame _ hne)

/-- **A change of one cell** in its slot. -/
theorem simulates_change (hindex : ∀ c, (h c).index = c.index)
    (hfail : ∀ a, a.node? i = none → x a = .error (Tree.notLive i) a)
    (hok : ∀ a p c ks, c.index = i → a.Has s p c ks → ∃ a', x a = .ok ⟨⟩ a' ∧ a.Rewritten a' ∧
      (∀ j, j ≠ i → a.Same a' j) ∧ a'.Has s p (h c) ks) :
    Routine.Simulates (HoldsWith s slots) x (Tree.change i (Node.onCell h)) := by
  rintro a t ⟨ha, hslots⟩
  unfold Tree.change
  by_cases hi : i ∈ t.indices
  · obtain ⟨above, m, hlineage, hm, hmi⟩ := Tree.exists_lineage ha.nodup hi
    obtain ⟨t', hu⟩ := Tree.exists_tree_update? (f := Node.onCell h) hm
    obtain ⟨p, hp⟩ := ha.everywhere_of_atLineage? hm
    obtain ⟨a', hx, hw, hsame, -⟩ := hok a p m.cell _ hmi hp.root
    rw [hx, Routine.bind_ok hlineage, Tree.changeAt_ok.mpr hu]
    have hperm : (Node.onCell h m).indices.Perm m.indices := by rw [Node.indices_onCell hindex]
    refine .ok ⟨ha.change hm hu hindex hw (fun j hj => hsame j (hmi ▸ hj)) fun q ks hq => ?_,
      List.Subset.trans hslots (Tree.indices_update? hu hm hperm).symm.subset⟩
    obtain ⟨a'', hx', -, -, hhas⟩ := hok a q m.cell ks hmi hq
    cases hx.symm.trans hx'
    exact hhas
  · have hnone : a.node? i = none := (ha.vacant i hi).node
    rw [hfail a hnone, Routine.bind_error (Tree.lineage_error hi)]
    exact .error ⟨ha, hslots⟩

theorem simulates_alter (hindex : ∀ c, (h c).index = c.index) (hformula : ∀ c, (h c).formula = c.formula)
    (hpending : ∀ c, (h c).pending = c.pending)
    (hg : ∀ c p ks, g (Cell.record c p ks) = (h c).record p ks) :
    Routine.Simulates (HoldsWith s slots) (alter i g) (Tree.change i (Node.onCell h)) := by
  refine simulates_change hindex (fun a => alter_error) fun a p c ks hc hhas => ?_
  subst hc
  exact ⟨_, alter_ok hhas.node, rewritten_amend a _ g, fun j => same_amend a g,
    hhas.amend (hindex c) (hformula c) (hpending c) (hg c p ks)⟩

end Arena

end RuleMonitor
