import RuleMonitor.Proofs.Arenas.Holding
import RuleMonitor.Proofs.Arenas.Parts

/-!
# Grafting parts

A graft takes slots for the parts, moves each position to its slot, and makes the root of the parts the
last branch of the node above, or the root of the arena. Nothing else changes, so that the parts stand
in the arena with the shape that they have over their positions.

* `Arena.place`: the slot that a position is moved to.
* `Arena.Filled`, **`Arena.Holds.exists_filled`**: slots that were taken and filled.
* **`Arena.Holds.graft_root`**, **`Arena.Holds.graft_branch`**: the arena after a graft.
* `Arena.graft_error_of_root`, `Arena.graft_error_of_parent`: grafts that fail.
-/

namespace RuleMonitor

open Std (ExtTreeMap ExtTreeSet)

namespace Arena

variable {s : Sentence} {a a₁ : Arena} {t t' : Tree} {p : Parts} {n m : Node} {i k : Nat} {r : Record}
  {lineage : List Nat} {parent : Option Nat}

/-! ## Slots for parts -/

theorem length_nextSlots (a : Arena) (k : Nat) : (a.nextSlots k).length = k := by
  unfold nextSlots
  rw [List.length_append, List.length_take, List.length_range']
  omega

/-- The slot that a position of `k` nodes is moved to. -/
def place (a : Arena) (k position : Nat) : Nat :=
  (a.nextSlots k).getD position 0

theorem map_place (a : Arena) (k : Nat) : (List.range k).map (a.place k) = a.nextSlots k := by
  refine List.ext_getElem? fun i => ?_
  rw [List.getElem?_map]
  by_cases hi : i < k
  · have hlt : i < (a.nextSlots k).length := by rwa [length_nextSlots]
    rw [List.getElem?_range hi, Option.map_some, place, List.getD_eq_getElem?_getD,
      List.getElem?_eq_getElem hlt, Option.getD_some]
  · rw [List.getElem?_eq_none (by simpa using hi),
      List.getElem?_eq_none (by rw [length_nextSlots]; omega)]
    rfl

theorem getElem?_nextSlots (a : Arena) {k i : Nat} (hi : i < k) :
    (a.nextSlots k)[i]? = some (a.place k i) := by
  rw [← map_place, List.getElem?_map, List.getElem?_range hi]
  rfl

theorem Holds.nextSlots_eq (h : Holds s a t) (k : Nat) : a.nextSlots k = t.nextSlots k := by
  rw [nextSlots, Tree.nextSlots, h.free, h.length]

theorem Holds.length_taken (h : Holds s a t) (k : Nat) :
    (a.taken k).nodes.length = (t.taken k).slots := by
  unfold taken Tree.taken
  rw [List.length_append, List.length_replicate, h.length, h.free]

theorem Holds.owns_taken (h : Holds s a t) (k : Nat) (root : Option Node) :
    Tree.Owns { t.taken k with root } (a.nextSlots k ++ t.indices) := by
  rw [h.nextSlots_eq]
  exact h.full.take k root _ _

theorem Holds.nodup_nextSlots (h : Holds s a t) (k : Nat) : (a.nextSlots k).Nodup :=
  (List.nodup_append.mp (h.owns_taken k none).nodup).1

theorem Holds.notMem_indices (h : Holds s a t) {j : Nat} (hj : j ∈ a.nextSlots k) : j ∉ t.indices :=
  fun hi => (List.nodup_append.mp (h.owns_taken k none).nodup).2.2 j hj j hi rfl

/-- Slots that were taken are filled. -/
structure Filled (s : Sentence) (a a₁ : Arena) (placed : List Record) : Prop where
  root : a₁.root = a.root
  length : a₁.nodes.length = (a.taken placed.length).nodes.length
  free : a₁.free = a.free.drop placed.length
  was : a₁.wasSubstantial = a.wasSubstantial
  now : a₁.substantial = a.substantial
  staged : a₁.staged = a.staged
  same : ∀ j, j ∉ a.nextSlots placed.length → a.Same a₁ j
  node : ∀ {k r}, placed[k]? = some r → a₁.node? (a.place placed.length k) = some r
  tables : ∀ {k r}, placed[k]? = some r → a.place placed.length k ∉ a₁.staged ∧
    ∀ p, a.place placed.length k ∈ a₁.quantifiersOver p ↔ s.patternAt? r.formula = some p

/-- **Slots are taken and filled.** -/
theorem Holds.exists_filled (h : Holds s a t) (placed : List Record) : ∃ a₁,
    occupyAll s ((a.nextSlots placed.length).zip placed) (a.taken placed.length) = .ok ⟨⟩ a₁ ∧
      a.Filled s a₁ placed := by
  have hfst : ((a.nextSlots placed.length).zip placed).map Prod.fst = a.nextSlots placed.length :=
    List.map_fst_zip (Nat.le_of_eq (length_nextSlots a _))
  have hlt : ∀ e ∈ (a.nextSlots placed.length).zip placed, e.1 < (a.taken placed.length).nodes.length :=
    fun e he => by
      have hnext : e.1 ∈ a.nextSlots placed.length := hfst ▸ List.mem_map_of_mem he
      rw [h.length_taken]
      exact (h.owns_taken _ none).lt_slots (List.mem_append_left _ hnext)
  have hvacant : ∀ j ∈ a.nextSlots placed.length, a.Vacant j := fun j hj => h.vacant j (h.notMem_indices hj)
  obtain ⟨nodes, quantifiers, hrun, hlength, hsame, hfilled⟩ :=
    exists_occupyAll s (hfst.symm ▸ h.nodup_nextSlots _) hlt
  rw [hfst] at hsame
  have hmem : ∀ {k r}, placed[k]? = some r →
      (a.place placed.length k, r) ∈ (a.nextSlots placed.length).zip placed := fun {k r} hk => by
    have hat := getElem?_nextSlots a (List.getElem?_eq_some_iff.mp hk).1
    exact List.mem_of_getElem? (i := k) (List.getElem?_zip_eq_some.mpr ⟨hat, hk⟩)
  refine ⟨_, hrun, rfl, hlength, rfl, rfl, rfl, rfl, fun j hj => (same_taken a _ j).trans (hsame j hj),
    fun hk => (hfilled _ (hmem hk)).1, fun {k r} hk => ?_⟩
  have hslot : a.place placed.length k ∈ a.nextSlots placed.length :=
    hfst ▸ List.mem_map_of_mem (hmem hk)
  refine ⟨(hvacant _ hslot).staged, fun p => ((hfilled _ (hmem hk)).2 p).trans ?_⟩
  exact or_iff_left ((hvacant _ hslot).quantified p)

/-- **The parts stand in their slots**, with the shape that they have. -/
theorem Filled.everywhere (hp : p.Shape n)
    (h : a.Filled s a₁ (p.settled (a.place p.nodes.length) parent)) :
    (n.map (Cell.moved (a.place p.nodes.length))).Everywhere (a₁.Has s) parent := by
  refine hp.settled fun above c ks hpending hnode => ?_
  have hat := h.node hnode
  have htables := h.tables hnode
  rw [Parts.length_settled] at hat htables
  exact ⟨hat, ⟨fun hi => absurd hi htables.1, fun hi => absurd (hpending.symm.trans hi) nofun⟩, htables.2⟩

theorem Holds.same_of_filled (h : Holds s a t) {placed : List Record} (hfilled : a.Filled s a₁ placed)
    (hi : i ∈ t.indices) : a.Same a₁ i :=
  hfilled.same i fun hi' => h.notMem_indices hi' hi

/-! ## The graft -/

theorem find?_formulas (hf : ∀ r ∈ p.nodes, r.formula < s.nodes.length) :
    (p.nodes.find? fun r => s.nodes.length ≤ r.formula) = none :=
  List.find?_eq_none.mpr fun r hr => by simpa using hf r hr

theorem graft_of_root (hroot : a.root = none) (hf : ∀ r ∈ p.nodes, r.formula < s.nodes.length)
    (hfill : occupyAll s ((a.nextSlots p.nodes.length).zip (p.settled (a.place p.nodes.length) none))
      (a.taken p.nodes.length) = .ok ⟨⟩ a₁) :
    graft s none p a =
      .ok (a.place p.nodes.length 0) { a₁ with root := some (a.place p.nodes.length 0) } := by
  unfold graft
  rw [Routine.get_bind]
  simp only [hroot, Option.isSome_none, Bool.false_eq_true, if_false, find?_formulas hf]
  refine (Routine.bind_ok (allocateAll_eq p.nodes.length a)).trans ?_
  exact Routine.bind_ok hfill

theorem graft_of_parent (hr : a.node? i = some r) (hf : ∀ r ∈ p.nodes, r.formula < s.nodes.length)
    (hfill : occupyAll s ((a.nextSlots p.nodes.length).zip (p.settled (a.place p.nodes.length) (some i)))
      (a.taken p.nodes.length) = .ok ⟨⟩ a₁) (hr' : a₁.node? i = some r) :
    graft s (some i) p a =
      .ok (a.place p.nodes.length 0) (a₁.amend i (·.graft (a.place p.nodes.length 0))) := by
  have hdiscard : (discard (Routine.ofExcept (a.node i)) : Routine Arena PUnit) a = .ok ⟨⟩ a := by
    rw [node_ok hr]
    rfl
  unfold graft
  rw [Routine.get_bind]
  simp only [find?_formulas hf]
  refine (Routine.bind_ok hdiscard).trans ?_
  refine (Routine.bind_ok (allocateAll_eq p.nodes.length a)).trans ?_
  refine (Routine.bind_ok hfill).trans ?_
  exact Routine.bind_ok (alter_ok hr')

theorem graft_error_of_parent (hr : a.node? i = none) (p : Parts) :
    graft s (some i) p a = .error (Tree.notLive i) a := by
  have hdiscard : (discard (Routine.ofExcept (a.node i)) : Routine Arena PUnit) a =
      .error (Tree.notLive i) a := by
    rw [node_error hr]
    rfl
  unfold graft
  rw [Routine.get_bind]
  exact Routine.bind_error hdiscard

theorem graft_error_of_root (hroot : a.root = some i) (p : Parts) :
    graft s none p a = .error (.inconsistent "grafting a second root") a := by
  unfold graft
  rw [Routine.get_bind]
  simp only [hroot, Option.isSome_some, if_true]
  rfl

theorem indices_placed (a : Arena) (hp : p.Shape n) :
    (n.map (Cell.moved (a.place p.nodes.length))).indices.Perm (a.nextSlots p.nodes.length) := by
  rw [Node.indices_moved, ← map_place]
  exact hp.positions.map _

/-- Slots are filled with nodes that the instantiation has from then on. -/
theorem Holds.fill_slots (h : Holds s a t) {placed : List Record} (hfilled : a.Filled s a₁ placed)
    (htree : ∃ root, t' = { t.taken placed.length with root })
    (hperm : t'.indices.Perm (a.nextSlots placed.length ++ t.indices))
    {a' : Arena} (hroot : a'.root = t'.root.map Node.index) (hlength : a'.nodes.length = a₁.nodes.length)
    (hfree : a'.free = a₁.free) (hwas : a'.wasSubstantial = a₁.wasSubstantial)
    (hnow : a'.substantial = a₁.substantial) (hsame : ∀ j, j ∉ t'.indices → a₁.Same a' j)
    (hnodes : ∀ n, t'.root = some n → n.Everywhere (a'.Has s) none) : Holds s a' t' := by
  obtain ⟨root, rfl⟩ := htree
  refine ⟨⟨hroot, ?_, ?_, hnodes, fun i hi => ?_, ?_⟩, ?_, ?_, fun i hi => ?_⟩
  · rw [hlength, hfilled.length, h.length_taken]
  · rw [hfree, hfilled.free, h.free]
    rfl
  · have hnot := mt hperm.mem_iff.mpr hi
    rw [List.mem_append, not_or] at hnot
    exact (h.vacant i hnot.2).same ((hfilled.same i hnot.1).trans (hsame i hi))
  · exact (h.owns_taken placed.length root).perm hperm.symm
  · rw [hwas, hfilled.was, h.was]
    rfl
  · rw [hnow, hfilled.now, h.now]
    rfl
  · exact hperm.symm.subset (List.mem_append_right _ (h.marked i hi))

/-- **The first nodes** of an arena. -/
theorem Holds.graft_root (h : Holds s a t) (ht : t.root = none) (hp : p.Shape n)
    (hf : ∀ r ∈ p.nodes, r.formula < s.nodes.length) :
    ∃ a₁, graft s none p a =
        .ok (a.place p.nodes.length 0) { a₁ with root := some (a.place p.nodes.length 0) } ∧
      a.Filled s a₁ (p.settled (a.place p.nodes.length) none) ∧
      Holds s { a₁ with root := some (a.place p.nodes.length 0) }
        { t.taken p.nodes.length with root := some (n.map (Cell.moved (a.place p.nodes.length))) } := by
  have hroot : a.root = none := by rw [h.root, ht]; rfl
  obtain ⟨a₁, hrun, hfilled⟩ := h.exists_filled (p.settled (a.place p.nodes.length) none)
  rw [Parts.length_settled] at hrun
  refine ⟨a₁, graft_of_root hroot hf hrun, hfilled, ?_⟩
  have heverywhere := hfilled.everywhere hp
  refine h.fill_slots hfilled ⟨_, by rw [Parts.length_settled]⟩ ?_ ?_ rfl rfl rfl rfl
    (fun j _ => ⟨rfl, .rfl, fun _ => .rfl⟩) fun n' hn' => ?_
  · rw [Parts.length_settled, Tree.indices_of_empty ht, List.append_nil]
    exact indices_placed a hp
  · rw [Option.map_some, Node.index_moved, hp.index]
  · cases hn'
    exact heverywhere.imp fun _ _ _ _ hhas => ⟨hhas.node, hhas.staged, hhas.quantified⟩

theorem everywhere_graft {branch : Node} {q : Option Nat} (hm : m.Everywhere (a.Has s) q)
    (hd : m.indices.Nodup) (hsame : ∀ c ∈ m.cells, a.Same a₁ c.index)
    (hbranch : branch.Everywhere (a₁.Has s) (some m.index)) (hnot : m.index ∉ branch.indices) :
    (m.graft branch).Everywhere ((a₁.amend m.index (·.graft branch.index)).Has s) q := by
  obtain ⟨c, kids⟩ := m
  obtain ⟨hc, hkids⟩ := Node.everywhere_mk.mp hm
  refine Node.everywhere_mk.mpr ⟨?_, fun kid hk => ?_⟩
  · refine (hc.same (hsame c (Node.cell_mem_cells _))).amend rfl rfl rfl ?_
    rw [List.map_append]
    rfl
  · rcases List.mem_append.mp hk with hk | hk
    · refine (hkids kid hk).imp fun above c' ks hc' hhas => hhas.same <|
        (hsame c' (Node.mem_cells_of_mem_kids (n := .mk c kids) hk hc')).trans (same_amend a₁ _ fun e => ?_)
      have hmem : c'.index ∈ kid.indices := List.mem_map_of_mem hc'
      rw [e] at hmem
      exact Node.index_notMem_kid hd hk hmem
    · rw [List.mem_singleton.mp hk]
      refine hbranch.imp fun above c' ks hc' hhas => hhas.same (same_amend a₁ _ fun e => hnot ?_)
      have hmem : c'.index ∈ branch.indices := List.mem_map_of_mem hc'
      rwa [e] at hmem

theorem indices_graft {root root' : Node} {way : List Nat} (a : Arena) (hp : p.Shape n)
    (hm : root.follow? way = some m)
    (hu : root.update? (·.graft (n.map (Cell.moved (a.place p.nodes.length)))) way = some root') :
    root'.indices.Perm (a.nextSlots p.nodes.length ++ root.indices) := by
  obtain ⟨m', rest, hm', hrest, hrest'⟩ := Node.indices_of_update? hu
  cases hm.symm.trans hm'
  refine hrest'.trans (((Node.indices_graft _ _).append_right rest).trans ?_)
  rw [List.append_assoc]
  exact (indices_placed a hp).append hrest.symm

/-- **One more branch** of a node. -/
theorem Holds.graft_branch (h : Holds s a t) (hm : t.atLineage? lineage = some m) (hp : p.Shape n)
    (hf : ∀ r ∈ p.nodes, r.formula < s.nodes.length)
    (hu : (t.taken p.nodes.length).update? lineage
      (·.graft (n.map (Cell.moved (a.place p.nodes.length)))) = some t') :
    ∃ a₁, graft s (some m.index) p a =
        .ok (a.place p.nodes.length 0) (a₁.amend m.index (·.graft (a.place p.nodes.length 0))) ∧
      a.Filled s a₁ (p.settled (a.place p.nodes.length) (some m.index)) ∧
      Holds s (a₁.amend m.index (·.graft (a.place p.nodes.length 0))) t' := by
  obtain ⟨q, hq⟩ := h.everywhere_of_atLineage? hm
  obtain ⟨a₁, hrun, hfilled⟩ := h.exists_filled (p.settled (a.place p.nodes.length) (some m.index))
  rw [Parts.length_settled] at hrun
  obtain ⟨root, ht⟩ := Tree.exists_root_of_atLineage? hm
  obtain ⟨way, root', hway, hroot', rfl⟩ := Tree.exists_of_update? hu ht
  have hfollow : root.follow? way = some m := hway.symm.trans hm
  have hkept : ∀ c ∈ root.cells, a.Same a₁ c.index := fun c hc => h.same_of_filled hfilled <| by
    rw [Tree.indices_of_root ht]
    exact List.mem_map_of_mem hc
  refine ⟨a₁, graft_of_parent hq.root.node hf hrun ?_, hfilled, ?_⟩
  · exact (hkept _ (Node.cell_mem_cells_of_mem (Node.mem_of_follow? hfollow))).node.trans hq.root.node
  have hperm := indices_graft a hp hfollow hroot'
  refine h.fill_slots hfilled ⟨_, by rw [Parts.length_settled]⟩ ?_ ?_ (rewritten_amend a₁ _ _).length
    rfl rfl rfl (fun j hj => same_amend a₁ _ ?_) fun n' hn' => ?_
  · rw [Parts.length_settled, Tree.indices_of_root ht]
    exact hperm
  · have hindex : root'.index = root.index := Node.index_update? (fun k _ => Tree.index_graft _ k) hroot'
    refine hfilled.root.trans (h.root.trans ?_)
    rw [ht]
    exact congrArg some hindex.symm
  · rintro rfl
    refine hj (hperm.symm.subset (List.mem_append_right _ ?_))
    exact List.mem_map_of_mem (Node.cell_mem_cells_of_mem (Node.mem_of_follow? hfollow))
  · cases hn'
    have hindex : (n.map (Cell.moved (a.place p.nodes.length))).index = a.place p.nodes.length 0 := by
      rw [Node.index_moved, hp.index]
    have hcells : m.cells ⊆ root.cells := Node.cells_subset_of_mem (Node.mem_of_follow? hfollow)
    have hfresh : m.index ∉ (n.map (Cell.moved (a.place p.nodes.length))).indices := fun hi => by
      refine h.notMem_indices ((indices_placed a hp).subset hi) ?_
      rw [Tree.indices_of_root ht]
      exact List.mem_map_of_mem (hcells (Node.cell_mem_cells m))
    rw [← hindex]
    refine (h.nodes root ht).update? (Tree.indices_of_root ht ▸ h.nodup) hroot' hfollow (Tree.index_graft _ m)
      (fun q' hq' => everywhere_graft hq' (Tree.nodup_of_atLineage? h.nodup hm)
        (fun c hc => hkept c (hcells hc)) (hfilled.everywhere hp) hfresh) fun above c ks hc hnot hhas => ?_
    exact hhas.same ((hkept c hc).trans (same_amend a₁ _ fun e => hnot (e ▸ m.index_mem_indices)))

end Arena

end RuleMonitor
