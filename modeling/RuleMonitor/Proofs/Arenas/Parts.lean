import RuleMonitor.Proofs.Arenas.Slots

/-!
# Nodes put together before they have slots

Parts that were put together make a tree over their positions, in whatever order they were absorbed:
each node stands at its position, and its branches and its parent are positions. When parts are
absorbed, or put into slots, all positions are moved in the same way, and the tree keeps its shape.

* `Parts.Assembled`: parts put together from single nodes.
* `Parts.Shape`: the tree that parts make over their positions; **`Parts.Assembled.exists_shape`**.
* **`Parts.Shape.settled`**: the tree in other places.
-/

namespace RuleMonitor

/-- The cell in another place. -/
def Cell.moved (place : Nat → Nat) (c : Cell) : Cell :=
  { c with index := place c.index }

namespace Node

variable {n branch : Node}

/-- The node with one more branch, which is not fresh. -/
def extend : (n branch : Node) → Node
  | mk c kids, branch => mk c (kids ++ [branch])

theorem index_extend (n branch : Node) : (n.extend branch).index = n.index := by
  obtain ⟨c, kids⟩ := n
  rfl

theorem indices_extend (n branch : Node) : (n.extend branch).indices.Perm (branch.indices ++ n.indices) := by
  obtain ⟨c, kids⟩ := n
  have h := indices_perm c kids branch []
  rwa [List.append_nil] at h

theorem indices_moved (place : Nat → Nat) (n : Node) :
    (n.map (Cell.moved place)).indices = n.indices.map place := by
  rw [indices, cells_map, List.map_map, indices, List.map_map]
  rfl

theorem index_moved (place : Nat → Nat) (n : Node) : (n.map (Cell.moved place)).index = place n.index := by
  rw [index, cell_map]
  rfl

end Node

namespace Parts

variable {p q : Parts} {n m n' : Node} {place : Nat → Nat} {parent : Option Nat} {k : Nat} {way : List Nat}

/-- A position holds a node with a cell that nothing is known about yet. -/
structure Has (p : Parts) (parent : Option Nat) (c : Cell) (kids : List Nat) : Prop where
  node : p.nodes[c.index]? = some (c.record parent kids)
  pending : c.pending = false

/-- Parts make a tree over their positions. -/
structure Shape (p : Parts) (n : Node) : Prop where
  index : n.index = 0
  /-- Each position is that of one node. -/
  positions : n.indices.Perm (List.range p.nodes.length)
  nodes : n.Everywhere p.Has none

theorem Shape.nodup (h : p.Shape n) : n.indices.Nodup :=
  h.positions.nodup_iff.mpr List.nodup_range

theorem length_settled (p : Parts) (place : Nat → Nat) (parent : Option Nat) :
    (p.settled place parent).length = p.nodes.length :=
  List.length_mapIdx

theorem getElem?_settled (p : Parts) (place : Nat → Nat) (parent : Option Nat) (k : Nat) :
    (p.settled place parent)[k]? = (p.nodes[k]?).map fun r =>
      r.settle place (if k = 0 then parent else r.parent.map place) :=
  List.getElem?_mapIdx

/-- **The tree in other places**, below another node. -/
theorem Shape.settled {Q : Option Nat → Cell → List Nat → Prop} (h : p.Shape n)
    (hQ : ∀ above (c : Cell) ks, c.pending = false →
      (p.settled place parent)[c.index]? = some (c.record above ks) → Q above (c.moved place) ks) :
    (n.map (Cell.moved place)).Everywhere Q parent := by
  obtain ⟨c, kids⟩ := n
  have hindex : c.index = 0 := h.index
  obtain ⟨hc, hkids⟩ := Node.everywhere_mk.mp h.nodes
  have hindices : Node.index ∘ Node.map (Cell.moved place) = place ∘ Node.index :=
    funext fun k => Node.index_moved place k
  rw [Node.map_mk, Node.everywhere_mk, List.forall_mem_map, List.map_map, hindices, ← List.map_map]
  constructor
  · refine hQ _ _ _ hc.pending ?_
    rw [getElem?_settled, hc.node, hindex]
    rfl
  · intro kid hk
    refine (hkids kid hk).map (fun _ => rfl) fun above c' ks hc' hhas => hQ _ _ _ hhas.pending ?_
    have hne : c'.index ≠ 0 := fun e => by
      have hmem : c'.index ∈ kid.indices := List.mem_map_of_mem hc'
      rw [e, ← hindex] at hmem
      exact Node.index_notMem_kid h.nodup hk hmem
    rw [getElem?_settled, hhas.node, Option.map_some, if_neg hne]
    rfl

/-! ## Putting parts together -/

theorem getElem?_join_of_ge (p : Parts) (hk : k < p.nodes.length) (q : Parts) (i : Nat) :
    (p.join k q).nodes[i + p.nodes.length]? = (q.settled (· + p.nodes.length) (some k))[i]? := by
  have hne : k ≠ i + p.nodes.length := by omega
  unfold join
  simp only
  rw [List.getElem?_modify, List.getElem?_append_right (Nat.le_add_left _ _), Nat.add_sub_cancel]
  simp [hne]

theorem getElem?_join_of_lt (p : Parts) {i : Nat} (hi : i < p.nodes.length) (k : Nat) (q : Parts) :
    (p.join k q).nodes[i]? =
      if k = i then (p.nodes[i]?).map (·.extend p.nodes.length) else p.nodes[i]? := by
  unfold join
  simp only
  rw [List.getElem?_modify, List.getElem?_append_left hi]
  split_ifs <;> simp

theorem length_join (p : Parts) (k : Nat) (q : Parts) :
    (p.join k q).nodes.length = p.nodes.length + q.nodes.length := by
  unfold join
  simp only
  rw [List.length_modify, List.length_append, length_settled]

theorem Shape.index_lt {c : Cell} (h : p.Shape n) (hc : c ∈ n.cells) : c.index < p.nodes.length :=
  List.mem_range.mp (h.positions.subset (List.mem_map_of_mem hc))

theorem Has.join {above : Option Nat} {c : Cell} {ks : List Nat} (h : p.Has above c ks)
    (hlt : c.index < p.nodes.length) (hne : c.index ≠ k) (q : Parts) : (p.join k q).Has above c ks where
  node := by rw [getElem?_join_of_lt p hlt, if_neg (Ne.symm hne), h.node]
  pending := h.pending

theorem Shape.absorbed (h : q.Shape m) (hk : k < p.nodes.length) :
    (m.map (Cell.moved (· + p.nodes.length))).Everywhere (p.join k q).Has (some k) :=
  h.settled fun _ c _ hpending hnode => ⟨(getElem?_join_of_ge p hk q c.index).trans hnode, hpending⟩

theorem Shape.extended {above : Option Nat} {a : Node} (hp : p.Shape n) (hq : q.Shape m) (ha : a ∈ n.subtrees)
    (h : a.Everywhere p.Has above) :
    (a.extend (m.map (Cell.moved (· + p.nodes.length)))).Everywhere (p.join a.index q).Has above := by
  have hlt : a.index < p.nodes.length := hp.index_lt (Node.cell_mem_cells_of_mem ha)
  have hbranch := hq.absorbed (k := a.index) hlt
  obtain ⟨c, kids⟩ := a
  obtain ⟨hc, hkids⟩ := Node.everywhere_mk.mp h
  refine Node.everywhere_mk.mpr ⟨⟨?_, hc.pending⟩, fun kid hk => ?_⟩
  · refine (getElem?_join_of_lt p hlt _ q).trans ?_
    have hnode : p.nodes[(Node.mk c kids).index]? = some (c.record above (kids.map Node.index)) := hc.node
    rw [if_pos rfl, hnode, List.map_append, List.map_singleton, Node.index_moved, hq.index, Nat.zero_add]
    rfl
  · rcases List.mem_append.mp hk with hk | hk
    · refine (hkids kid hk).imp fun above' c' ks hc' hhas => hhas.join (hp.index_lt ?_) (fun e => ?_) q
      · exact Node.cells_subset_of_mem ha (Node.mem_cells_of_mem_kids (n := .mk c kids) hk hc')
      · have hmem : c'.index ∈ kid.indices := List.mem_map_of_mem hc'
        rw [e] at hmem
        exact Node.index_notMem_kid (Node.nodup_indices_of_mem hp.nodup ha) hk hmem
    · rw [List.mem_singleton.mp hk]
      exact hbranch

/-- **Parts that are absorbed** become the last branch of a node. -/
theorem Shape.join (hp : p.Shape n) (hq : q.Shape m) {a n' : Node} (ha : n.follow? way = some a)
    (hn' : n.update? (·.extend (m.map (Cell.moved (· + p.nodes.length)))) way = some n') :
    (p.join a.index q).Shape n' := by
  refine ⟨?_, ?_, ?_⟩
  · rw [Node.index_update? (fun k _ => Node.index_extend k _) hn', hp.index]
  · obtain ⟨a', rest, ha', h, h'⟩ := Node.indices_of_update? hn'
    cases ha.symm.trans ha'
    have hall : n'.indices.Perm ((m.map (Cell.moved (· + p.nodes.length))).indices ++ n.indices) := by
      refine h'.trans (((Node.indices_extend _ _).append_right rest).trans ?_)
      rw [List.append_assoc]
      exact h.symm.append_left _
    rw [length_join, List.range_add]
    refine hall.trans (List.perm_append_comm.trans (hp.positions.append ?_))
    rw [Node.indices_moved]
    refine (hq.positions.map _).trans ?_
    rw [List.map_congr_left fun i _ => Nat.add_comm i p.nodes.length]
  · exact hp.nodes.update? hp.nodup hn' ha (Node.index_extend _ _)
      (fun above => hp.extended hq (Node.mem_of_follow? ha)) fun above c ks hc hnot hhas =>
        hhas.join (hp.index_lt hc) (fun e => hnot (e ▸ a.index_mem_indices)) q

/-- Parts that were put together from single nodes, each below a node that was there. -/
inductive Assembled : Parts → Prop
  | single (formula : Nat) (env : Env) (bound : Option Nat) : Assembled (single formula env bound)
  | absorb {p q r : Parts} {parent : Nat} (hp : Assembled p) (hq : Assembled q)
      (hparent : parent < p.nodes.length) (hr : p.absorb parent q = .ok r) : Assembled r

theorem shape_single (formula : Nat) (env : Env) (bound : Option Nat) :
    (single formula env bound).Shape (.mk { index := 0, formula, env, bound } []) where
  index := rfl
  positions := .refl _
  nodes := Node.everywhere_mk.mpr ⟨⟨rfl, rfl⟩, nofun⟩

theorem absorb_eq_ok {parent : Nat} (h : parent < p.nodes.length) (q : Parts) :
    p.absorb parent q = .ok (p.join parent q) := by
  unfold absorb
  exact if_pos (Nat.lt_add_right _ h)

/-- **Parts make a tree**, in whatever order they were put together. -/
theorem Assembled.exists_shape (h : p.Assembled) : ∃ n, p.Shape n := by
  induction h with
  | single formula env bound => exact ⟨_, shape_single formula env bound⟩
  | absorb hp hq hparent hr ihp ihq =>
    obtain ⟨n, hn⟩ := ihp
    obtain ⟨m, hm⟩ := ihq
    rw [absorb_eq_ok hparent] at hr
    cases hr
    obtain ⟨way, a, ha, rfl⟩ := Node.exists_way hn.nodup
      (hn.positions.symm.subset (List.mem_range.mpr hparent))
    obtain ⟨n', hn'⟩ := Node.exists_update? ha
    exact ⟨n', hn.join hm ha hn'⟩

end Parts

end RuleMonitor
