import Mathlib.Logic.Relation
import RuleMonitor.Proofs.Arenas.Grafting
import RuleMonitor.Proofs.Arenas.Removing
import RuleMonitor.Proofs.Arenas.Writing
import RuleMonitor.Proofs.Drafts

/-!
# Arenas after calls in a row

Starting with an empty arena, calls of its operations, those that fail among them, lead to arenas that
hold an instantiation. What links the slots is a tree then, the tables say what the nodes say, a graft
copies parts into slots that were free, and a removal takes a subtree out.

* `Arena.IsTree`: the slots are linked to a tree, and the tables fit it; `Arena.Holds.isTree`.
* `Arena.Grafted`, `Arena.Removed`: what a graft and a removal do to the slots;
  **`Arena.Holds.exists_graft`**, **`Arena.Holds.exists_remove`**.
* `Arena.Call.exists_holds`: one call; `Arena.Reached.holds`: calls in a row.
* **`Arena.Reached.stands_for_tree`**: the arenas that are reached.
-/

namespace RuleMonitor

open Std (ExtTreeMap ExtTreeSet)

namespace Arena

variable {s : Sentence} {a a' a₁ : Arena} {t : Tree} {n m : Node} {i j : Nat} {r : Record} {p : Parts}

/-! ## The links between slots -/

/-- A slot is listed among the branches of another one. -/
def Branch (a : Arena) (i j : Nat) : Prop :=
  ∃ r, a.node? i = some r ∧ j ∈ r.kids

/-- The slots are linked to one tree, and the tables fit its nodes. -/
structure IsTree (s : Sentence) (a : Arena) : Prop where
  free_nodup : a.free.Nodup
  /-- The free slots are those with nothing in them. -/
  mem_free : ∀ i, i ∈ a.free ↔ a.nodes[i]? = some none
  /-- The root is the one node that is below no other. -/
  root : ∀ i, a.root = some i ↔ ∃ r, a.node? i = some r ∧ r.parent = none
  /-- The node above a node lists it, once. -/
  listed : ∀ i r q, a.node? i = some r → r.parent = some q → ∃ r', a.node? q = some r' ∧ r'.kids.count i = 1
  /-- No other node lists it. -/
  above : ∀ i j, a.Branch i j → ∃ r, a.node? j = some r ∧ r.parent = some i
  reachable : ∀ i r, a.node? i = some r → ∃ root, a.root = some root ∧ Relation.ReflTransGen a.Branch root i
  quantified : ∀ p i, i ∈ a.nodesOver p ↔ ∃ r, a.node? i = some r ∧ s.patternAt? r.formula = some p
  /-- Tables have nodes only. -/
  live : ∀ i, i ∈ a.staged ∨ i ∈ a.wasSubstantial ∨ i ∈ a.substantial → ∃ r, a.node? i = some r

theorem branches_of_everywhere {parent : Option Nat} (h : n.Everywhere (a.Has s) parent) :
    ∀ e ∈ n.descent parent, Relation.ReflTransGen a.Branch n.index e.2.index := by
  induction n using Node.induct generalizing parent with
  | mk c kids ih =>
    intro e he
    obtain ⟨hc, hkids⟩ := Node.everywhere_mk.mp h
    rw [Node.descent_mk, List.mem_cons, List.mem_flatMap] at he
    rcases he with rfl | ⟨kid, hk, he⟩
    · exact .refl
    · exact .head ⟨_, hc.node, List.mem_map_of_mem hk⟩ (ih kid hk (hkids kid hk) e he)

theorem Holds.mem_free (h : Holds s a t) : i ∈ a.free ↔ a.nodes[i]? = some none := by
  have hmem : i ∈ t.indices ++ t.free ↔ i < a.nodes.length := by
    rw [h.full.mem_iff, List.mem_range, h.length]
  have hnot : i ∈ t.free → i ∉ t.indices := fun hi hi' =>
    (List.nodup_append.mp (h.full.nodup_iff.mpr List.nodup_range)).2.2 i hi' i hi rfl
  rw [h.free]
  constructor
  · intro hi
    have hlt := hmem.mp (List.mem_append_right _ hi)
    have hnone := (h.vacant i (hnot hi)).node
    rw [node?, List.getElem?_eq_getElem hlt, Option.join_some] at hnone
    rw [List.getElem?_eq_getElem hlt, hnone]
  · intro hi
    have hlt := (List.getElem?_eq_some_iff.mp hi).1
    refine (List.mem_append.mp (hmem.mpr hlt)).resolve_left fun hi' => ?_
    obtain ⟨r, hr⟩ := h.mem_indices_iff.mp hi'
    rw [node?, hi] at hr
    cases hr

theorem Holds.root_iff (h : Holds s a t) : a.root = some i ↔ ∃ r, a.node? i = some r ∧ r.parent = none := by
  constructor
  · intro hroot
    rw [h.root] at hroot
    obtain ⟨n, ht, rfl⟩ := Option.map_eq_some_iff.mp hroot
    exact ⟨_, (h.nodes n ht).root.node, rfl⟩
  · rintro ⟨r, hr, hnone⟩
    obtain ⟨n, q, m, ht, hm, rfl, rfl⟩ := h.exists_entry hr
    rcases Node.exists_above_of_mem_descent hm with ⟨-, rfl⟩ | ⟨x, q', -, rfl, -⟩
    · rw [h.root, ht]
      rfl
    · cases hnone

theorem Holds.nodup_kids (h : Holds s a t) (hr : a.node? i = some r) : r.kids.Nodup := by
  obtain ⟨n, q, m, ht, hm, rfl, rfl⟩ := h.exists_entry hr
  have hmem := Node.mem_subtrees_of_mem_descent hm
  exact Node.nodup_index_kids (Node.nodup_indices_of_mem (Tree.indices_of_root ht ▸ h.nodup) hmem)

theorem Holds.listed {q : Nat} (h : Holds s a t) (hr : a.node? i = some r) (hq : r.parent = some q) :
    ∃ r', a.node? q = some r' ∧ r'.kids.count i = 1 := by
  obtain ⟨n, q', m, ht, hm, rfl, rfl⟩ := h.exists_entry hr
  rcases Node.exists_above_of_mem_descent hm with ⟨rfl, -⟩ | ⟨x, m', hm', rfl, hk⟩
  · cases hq
  · cases hq
    have hnode := (h.nodes n ht _ hm').node
    exact ⟨_, hnode, List.count_eq_one_of_mem (h.nodup_kids hnode) (List.mem_map_of_mem hk)⟩

theorem Holds.above (h : Holds s a t) (hb : a.Branch i j) : ∃ r, a.node? j = some r ∧ r.parent = some i := by
  obtain ⟨r, hr, hj⟩ := hb
  obtain ⟨n, q, m, ht, hm, rfl, rfl⟩ := h.exists_entry hr
  obtain ⟨k, hk, rfl⟩ := List.mem_map.mp hj
  exact ⟨_, (h.nodes n ht _ (Node.kid_mem_descent hm hk)).node, rfl⟩

theorem Holds.reachable (h : Holds s a t) (hr : a.node? i = some r) :
    ∃ root, a.root = some root ∧ Relation.ReflTransGen a.Branch root i := by
  obtain ⟨n, q, m, ht, hm, rfl, rfl⟩ := h.exists_entry hr
  refine ⟨n.index, by rw [h.root, ht]; rfl, ?_⟩
  exact branches_of_everywhere (h.nodes n ht) _ hm

theorem Holds.live (h : Holds s a t) (hi : i ∈ a.staged ∨ i ∈ a.wasSubstantial ∨ i ∈ a.substantial) :
    ∃ r, a.node? i = some r := by
  rw [h.was, h.now] at hi
  refine h.mem_indices_iff.mp ?_
  rcases hi with hi | hi
  · by_contra hnot
    exact (h.vacant i hnot).staged hi
  · exact h.marked i hi

/-- **An arena that holds an instantiation** is linked to a tree. -/
theorem Holds.isTree (h : Holds s a t) : a.IsTree s where
  free_nodup := by
    rw [h.free]
    exact (List.nodup_append.mp (h.full.nodup_iff.mpr List.nodup_range)).2.1
  mem_free _ := h.mem_free
  root _ := h.root_iff
  listed _ _ _ := h.listed
  above _ _ := h.above
  reachable _ _ := h.reachable
  quantified _ _ := ExtTreeSet.mem_toList.trans h.mem_quantifiersOver_iff
  live _ := h.live

/-! ## Grafts and removals, slot by slot -/

/-- Parts were copied into slots that were free, each position to its place. -/
structure Grafted (a a' : Arena) (parent : Option Nat) (p : Parts) (place : Nat → Nat) : Prop where
  /-- The slots freed last are taken first, and then new ones. -/
  slots : (List.range p.nodes.length).map place = a.free.take p.nodes.length ++
    List.range' a.nodes.length (p.nodes.length - a.free.length)
  nodup : ((List.range p.nodes.length).map place).Nodup
  free : a'.free = a.free.drop p.nodes.length
  fresh : ∀ k < p.nodes.length, a.node? (place k) = none
  copied : ∀ k r, p.nodes[k]? = some r → a'.node? (place k) =
    some (r.settle place (if k = 0 then parent else r.parent.map place))
  /-- The node above gets the root of the parts as its last branch. -/
  above : ∀ i r, parent = some i → a.node? i = some r → a'.node? i = some (r.graft (place 0))
  root : a'.root = if parent = none then some (place 0) else a.root
  /-- Nothing else changes. -/
  kept : ∀ i, i ∉ (List.range p.nodes.length).map place → parent ≠ some i → a'.node? i = a.node? i
  tables : a'.staged = a.staged ∧ a'.wasSubstantial = a.wasSubstantial ∧ a'.substantial = a.substantial

/-- The slots on a stack and below, in the order in which they are come to if the branches of a node are
taken from the last one to the first. -/
inductive Unwinds (a : Arena) : List Nat → List Nat → Prop
  | nil : Unwinds a [] []
  | cons {i : Nat} {r : Record} {stack order : List Nat} (hr : a.node? i = some r)
      (h : Unwinds a (r.kids.reverse ++ stack) order) : Unwinds a (i :: stack) (i :: order)

/-- A node was taken out with all nodes below it. -/
structure Removed (a a' : Arena) (index : Nat) (r : Record) (freed : List Nat) : Prop where
  order : a.Unwinds [index] freed
  nodup : freed.Nodup
  /-- The slots that are freed are those of the subtree. -/
  below : ∀ i, i ∈ freed ↔ Relation.ReflTransGen a.Branch index i
  free : a'.free = freed.reverse ++ a.free
  gone : ∀ i ∈ freed, a'.node? i = none
  /-- The node above loses the branch. -/
  above : ∀ i r', r.parent = some i → a.node? i = some r' → ∃ position, r'.kids[position]? = some index ∧
    a'.node? i = some (r'.forget position r.bound)
  root : a'.root = if r.parent = none then none else a.root
  /-- Nothing else changes. -/
  kept : ∀ i, i ∉ freed → r.parent ≠ some i → a'.node? i = a.node? i
  tables : ∀ i, (i ∈ a'.staged ↔ i ∈ a.staged ∧ i ∉ freed) ∧
    (i ∈ a'.wasSubstantial ↔ i ∈ a.wasSubstantial ∧ i ∉ freed) ∧
    (i ∈ a'.substantial ↔ i ∈ a.substantial ∧ i ∉ freed)

theorem Holds.grafted {parent : Option Nat} (h : Holds s a t)
    (hfilled : a.Filled s a₁ (p.settled (a.place p.nodes.length) parent))
    (hlive : ∀ i, parent = some i → i ∈ t.indices) (hfree : a'.free = a₁.free)
    (htables : a'.staged = a₁.staged ∧ a'.wasSubstantial = a₁.wasSubstantial ∧ a'.substantial = a₁.substantial)
    (hroot : a'.root = if parent = none then some (a.place p.nodes.length 0) else a₁.root)
    (hother : ∀ i, parent ≠ some i → a'.node? i = a₁.node? i)
    (habove : ∀ i r, parent = some i → a₁.node? i = some r →
      a'.node? i = some (r.graft (a.place p.nodes.length 0))) :
    a.Grafted a' parent p (a.place p.nodes.length) := by
  have hfresh : ∀ k < p.nodes.length, a.place p.nodes.length k ∉ t.indices := fun k hk =>
    h.notMem_indices (List.mem_of_getElem? (getElem?_nextSlots a hk))
  have hfreed := hfilled.free
  have hsame := hfilled.same
  rw [Parts.length_settled] at hfreed hsame
  refine ⟨map_place a _, ?_, hfree.trans hfreed, fun k hk => (h.vacant _ (hfresh k hk)).node, fun k r hk => ?_,
    fun i r hi hr => ?_, hroot.trans (by rw [hfilled.root]), fun i hi hne => ?_, ?_⟩
  · rw [map_place]
    exact h.nodup_nextSlots _
  · have hlt : k < p.nodes.length := (List.getElem?_eq_some_iff.mp hk).1
    have hnode := hfilled.node (k := k) ((Parts.getElem?_settled p _ parent k).trans (congrArg _ hk))
    rw [Parts.length_settled] at hnode
    rw [hother _ fun hi => hfresh k hlt (hlive _ hi)]
    exact hnode
  · exact habove i r hi ((h.same_of_filled hfilled (hlive i hi)).node.trans hr)
  · rw [map_place] at hi
    exact (hother i hne).trans (hsame i hi).node
  · rw [htables.1, htables.2.1, htables.2.2]
    exact ⟨hfilled.staged, hfilled.was, hfilled.now⟩

/-- **A graft** of parts that were put together. -/
theorem Holds.exists_graft (h : Holds s a t) (hp : p.Assembled)
    (hf : ∀ r ∈ p.nodes, r.formula < s.nodes.length) (parent : Option Nat) :
    (∃ place a', graft s parent p a = .ok (place 0) a' ∧ a.Grafted a' parent p place ∧ ∃ t', Holds s a' t') ∨
      ∃ e, graft s parent p a = .error e a ∧
        (parent = none ∧ a.root ≠ none ∨ ∃ i, parent = some i ∧ a.node? i = none) := by
  obtain ⟨n, hn⟩ := hp.exists_shape
  cases parent with
  | none =>
    cases hroot : a.root with
    | some i => exact .inr ⟨_, graft_error_of_root hroot p, .inl ⟨rfl, nofun⟩⟩
    | none =>
      have ht : t.root = none := Option.map_eq_none_iff.mp (h.root.symm.trans hroot)
      obtain ⟨a₁, hrun, hfilled, hheld⟩ := h.graft_root ht hn hf
      refine .inl ⟨_, _, hrun, ?_, _, hheld⟩
      exact h.grafted hfilled nofun rfl ⟨rfl, rfl, rfl⟩ (if_pos rfl).symm (fun _ _ => rfl) nofun
  | some i =>
    by_cases hi : i ∈ t.indices
    · obtain ⟨above, m, -, hm, rfl⟩ := Tree.exists_lineage h.nodup hi
      obtain ⟨t', hu⟩ := Tree.exists_tree_update? (t := t.taken p.nodes.length)
        (f := (·.graft (n.map (Cell.moved (a.place p.nodes.length))))) hm
      obtain ⟨a₁, hrun, hfilled, hheld⟩ := h.graft_branch hm hn hf hu
      refine .inl ⟨_, _, hrun, ?_, _, hheld⟩
      refine h.grafted hfilled (fun j hj => ?_) rfl ⟨rfl, rfl, rfl⟩ (if_neg nofun).symm (fun j hj => ?_)
        fun j r hj hr => ?_
      · cases hj
        exact hi
      · rw [node?_amend, if_neg fun e => hj (congrArg some e)]
      · cases hj
        rw [node?_amend, if_pos rfl, hr]
        rfl
    · have hnone : a.node? i = none := (h.vacant i hi).node
      exact .inr ⟨_, graft_error_of_parent hnone p, .inr ⟨i, rfl, hnone⟩⟩

/-- A node comes before its branches, and these from the last one to the first. -/
theorem unwinds_node : ∀ {n : Node} {parent : Option Nat} {stack order : List Nat},
    n.Everywhere (a.Has s) parent → a.Unwinds stack order →
      a.Unwinds (n.index :: stack) (n.slots ++ order) := by
  intro n
  induction n using Node.induct with
  | mk c kids ih =>
    intro parent stack order h horder
    obtain ⟨hc, hkids⟩ := Node.everywhere_mk.mp h
    have hall : ∀ {stack order : List Nat}, (∀ kid ∈ kids, kid.Everywhere (a.Has s) (some c.index)) →
        a.Unwinds stack order →
        a.Unwinds ((kids.map Node.index).reverse ++ stack) (Node.slotsAll kids ++ order) := by
      clear hkids horder hc h
      induction kids with
      | nil => exact fun _ h => h
      | cons kid kids ihs =>
        intro stack order h horder
        rw [List.forall_mem_cons] at h
        have hfirst := ih kid List.mem_cons_self h.1 horder
        have hrest := ihs (fun k hk => ih k (List.mem_cons_of_mem _ hk)) h.2 hfirst
        rwa [List.map_cons, List.reverse_cons, List.append_assoc, List.singleton_append, Node.slotsAll,
          List.append_assoc]
    exact .cons hc.node (hall hkids horder)

theorem mem_indices_iff_branches {parent : Option Nat} (h : n.Everywhere (a.Has s) parent) :
    i ∈ n.indices ↔ Relation.ReflTransGen a.Branch n.index i := by
  constructor
  · intro hi
    obtain ⟨q, m, hm, rfl⟩ := Node.exists_mem_descent hi parent
    exact branches_of_everywhere h _ hm
  · intro hi
    induction hi with
    | refl => exact n.index_mem_indices
    | tail _ hb ih =>
      obtain ⟨q, m, hm, rfl⟩ := Node.exists_mem_descent ih parent
      obtain ⟨r, hr, hk⟩ := hb
      have hnode : a.node? m.index = some _ := (h _ hm).node
      cases hr.symm.trans hnode
      obtain ⟨kid, hkid, rfl⟩ := List.mem_map.mp hk
      exact Node.index_mem_of_mem (Node.mem_subtrees_of_mem_descent (Node.kid_mem_descent hm hkid))

/-- What a removal does that frees the slots of a node and of those below it. -/
theorem Emptied.removed {parent : Option Nat} (hfreed : a₁.Emptied a' m.slots)
    (hm : m.Everywhere (a.Has s) parent) (hd : m.indices.Nodup) (hfree : a₁.free = a.free)
    (htables : a₁.staged = a.staged ∧ a₁.wasSubstantial = a.wasSubstantial ∧ a₁.substantial = a.substantial)
    (hroot : a₁.root = if parent = none then none else a.root)
    (hother : ∀ i, parent ≠ some i → a₁.node? i = a.node? i)
    (habove : ∀ i, parent = some i → i ∉ m.indices ∧ ∀ r', a.node? i = some r' → ∃ position,
      r'.kids[position]? = some m.index ∧ a₁.node? i = some (r'.forget position m.cell.bound)) :
    a.Removed a' m.index (m.cell.record parent (m.kids.map Node.index)) m.slots := by
  have hslots : ∀ {i}, i ∈ m.slots ↔ i ∈ m.indices := m.slots_perm.mem_iff
  refine ⟨?_, m.slots_perm.nodup_iff.mpr hd, fun i => hslots.trans (mem_indices_iff_branches hm),
    hfreed.free.trans (hfree ▸ rfl), fun i hi => (hfreed.vacant i hi).node, fun i r' hi hr' => ?_,
    hfreed.root.trans hroot, fun i hi hne => (hfreed.same i hi).node.trans (hother i hne),
    fun i => ⟨?_, ?_, ?_⟩⟩
  · have horder := unwinds_node hm (.nil (a := a))
    rwa [List.append_nil] at horder
  · obtain ⟨hnot, hlisted⟩ := habove i hi
    obtain ⟨position, hposition, hnode⟩ := hlisted r' hr'
    exact ⟨position, hposition, (hfreed.same i (mt hslots.mp hnot)).node.trans hnode⟩
  · rw [← htables.1]
    by_cases hi : i ∈ m.slots
    · exact iff_of_false (hfreed.vacant i hi).staged fun h => h.2 hi
    · exact (hfreed.same i hi).staged.trans (and_iff_left hi).symm
  · rw [hfreed.was, htables.2.1]
    exact mem_foldl_erase
  · rw [hfreed.now, htables.2.2]
    exact mem_foldl_erase

/-- **A removal** of a node that is there. -/
theorem Holds.exists_remove (h : Holds s a t) (hr : a.node? i = some r) :
    ∃ freed a', remove s i a = .ok ⟨⟩ a' ∧ a.Removed a' i r freed ∧ ∃ t', Holds s a' t' := by
  obtain ⟨above, m, -, hm, rfl⟩ := Tree.exists_lineage h.nodup (h.mem_indices_iff.mpr ⟨r, hr⟩)
  have hd := Tree.nodup_of_atLineage? h.nodup hm
  rcases h.exists_parent hm with ⟨rfl, ht, hhas⟩ | ⟨habove, q, hq, hbranch, hhas⟩
  · obtain ⟨a', hrun, hfreed, hheld⟩ := h.remove_root ht
    cases hr.symm.trans hhas.root.node
    refine ⟨m.slots, a', hrun, ?_, _, hheld⟩
    exact hfreed.removed hhas hd rfl ⟨rfl, rfl, rfl⟩ (if_pos rfl).symm (fun _ _ => rfl) nofun
  · obtain ⟨t₁, hu⟩ := Tree.exists_tree_update? (f := Node.prune m.index) hq
    obtain ⟨a', position, hrun, hposition, hfreed, hheld⟩ := h.remove_branch habove hm hq hu
    obtain ⟨p, hqhas⟩ := h.everywhere_of_atLineage? hq
    have hqnode : a.node? q.index = some (q.cell.record p (q.kids.map Node.index)) := hqhas.root.node
    cases hr.symm.trans hhas.root.node
    refine ⟨m.slots, a', hrun, ?_, _, hheld⟩
    refine hfreed.removed hhas hd rfl ⟨rfl, rfl, rfl⟩ (if_neg nofun).symm (fun i hi => ?_) fun i hi => ?_
    · rw [node?_amend, if_neg fun e => hi (congrArg some e)]
    · cases hi
      refine ⟨?_, fun r' hr' => ⟨position, ?_, ?_⟩⟩
      · obtain ⟨c, kids⟩ := q
        obtain ⟨l, k, rfl, -, -⟩ := Node.exists_of_follow?_branch hbranch
        exact Node.index_notMem_kid (Tree.nodup_of_atLineage? h.nodup hq)
          (List.mem_append_right _ List.mem_cons_self)
      · cases hr'.symm.trans hqnode
        exact hposition
      · rw [node?_amend, if_pos rfl, hr', Option.map_some]

/-! ## Calls in a row -/

/-- A call of an operation. -/
inductive Call where
  | graft (parent : Option Nat) (p : Parts)
  | remove (index : Nat)
  | touch (index : Nat)
  | apply (f : Findings) (stage : Stage)
  | commit
  | rebind (index : Nat) (var : String) (c : Context)
  | renameLinks (var : String) (old new : Nat)
  | beginCycle
  | clear

/-- The arena after a call, whether it succeeds or not. -/
def Call.after (s : Sentence) : Call → Arena → Arena
  | .graft parent p => (Arena.graft s parent p).after
  | .remove i => (Arena.remove s i).after
  | .touch i => (Arena.touch i).after
  | .apply f stage => (Arena.apply f stage).after
  | .commit => Arena.commit.after
  | .rebind i var c => (Arena.rebind i var c).after
  | .renameLinks var old new => (·.renameLinks var old new)
  | .beginCycle => Arena.beginCycle
  | .clear => fun _ => {}

/-- Calls that are made: parts that are grafted were put together, over formulas of the sentence, and
nodes that are found to be substantial are live. -/
def Call.Allowed (s : Sentence) (a : Arena) : Call → Prop
  | .graft _ p => p.Assembled ∧ ∀ r ∈ p.nodes, r.formula < s.nodes.length
  | .apply f _ => ∀ i ∈ f.substantial, ∃ r, a.node? i = some r
  | _ => True

/-- **A call** leads from an instantiation to an instantiation. -/
theorem Call.exists_holds {x : Call} (hx : x.Allowed s a) (h : Holds s a t) :
    ∃ t', Holds s (x.after s a) t' := by
  cases x with
  | graft parent p =>
    rcases h.exists_graft hx.1 hx.2 parent with ⟨place, a', hrun, -, hheld⟩ | ⟨e, hrun, -⟩
    · rwa [after, Routine.after_eq hrun]
    · rw [after, Routine.after_eq_of_error hrun]
      exact ⟨t, h⟩
  | remove i => exact ⟨_, (simulates_remove i a t h).after⟩
  | touch i =>
    have hwith : HoldsWith s [] a t := ⟨h, List.nil_subset _⟩
    exact ⟨_, (simulates_touch i a t hwith).after.1⟩
  | apply f stage =>
    have hslots : f.substantial ⊆ t.indices := fun i hi => h.mem_indices_iff.mpr (hx i hi)
    exact ⟨_, (simulates_apply f stage a t ⟨h, hslots⟩).after.1⟩
  | commit => exact ⟨_, (simulates_commit a t h).after⟩
  | rebind i var c => exact ⟨_, (simulates_rebind i var c a t h).after⟩
  | renameLinks var old new => exact ⟨_, h.renameLinks var old new⟩
  | beginCycle => exact ⟨_, h.beginCycle⟩
  | clear => exact ⟨_, .empty s⟩

/-- The arenas that calls lead to, starting with an empty one. -/
inductive Reached (s : Sentence) : Arena → Prop
  | empty : Reached s {}
  | call {a : Arena} (x : Call) (h : Reached s a) (hx : x.Allowed s a) : Reached s (x.after s a)

/-- An arena that is reached holds the instantiation that is read off it. -/
theorem Reached.holds (h : Reached s a) : Holds s a a.tree := by
  have hexists : ∃ t, Holds s a t := by
    induction h with
    | empty => exact ⟨_, .empty s⟩
    | call x _ hx ih =>
      obtain ⟨t, ht⟩ := ih
      exact x.exists_holds hx ht
  obtain ⟨t, ht⟩ := hexists
  exact ht.tree_eq ▸ ht

/-- **Arenas that are reached** stand for a tree. A graft below a node, or of a first root, copies the
parts into free slots, and a removal of a node frees the slots of the subtree. Other grafts and removals
fail, and leave the arena as it is. -/
theorem Reached.stands_for_tree (h : Reached s a) : a.IsTree s ∧
    (∀ parent p, p.Assembled → (∀ r ∈ p.nodes, r.formula < s.nodes.length) →
      (∃ place a', graft s parent p a = .ok (place 0) a' ∧ a.Grafted a' parent p place) ∨
        ∃ e, graft s parent p a = .error e a ∧
          (parent = none ∧ a.root ≠ none ∨ ∃ i, parent = some i ∧ a.node? i = none)) ∧
    ∀ i, (∃ r freed a', a.node? i = some r ∧ remove s i a = .ok ⟨⟩ a' ∧ a.Removed a' i r freed) ∨
      ∃ e, remove s i a = .error e a ∧ a.node? i = none := by
  refine ⟨h.holds.isTree, fun parent p hp hf => ?_, fun i => ?_⟩
  · rcases h.holds.exists_graft hp hf parent with ⟨place, a', hrun, hgrafted, -⟩ | herror
    · exact .inl ⟨place, a', hrun, hgrafted⟩
    · exact .inr herror
  · cases hr : a.node? i with
    | some r =>
      obtain ⟨freed, a', hrun, hremoved, -⟩ := h.holds.exists_remove hr
      exact .inl ⟨r, freed, a', rfl, hrun, hremoved⟩
    | none => exact .inr ⟨_, remove_error hr s, rfl⟩

end Arena

namespace Sample

/-- A gauge and what has to hold of it, before they have slots. -/
def gauge : Parts :=
  (Parts.single 3 ∅ (some 0)).join 0 (.single 2 ∅ (some 1))

/-- An arena from which the only branch of the root was removed. -/
def bare : Arena :=
  [Arena.Call.graft none (.single 4 ∅ none), .graft (some 0) gauge, .remove 1].foldl
    (fun a x => x.after pairing a) {}

theorem assembled_gauge : gauge.Assembled :=
  .absorb (.single 3 ∅ (some 0)) (.single 2 ∅ (some 1)) Nat.zero_lt_one (Parts.absorb_eq_ok Nat.zero_lt_one _)

theorem reached_bare : Arena.Reached pairing bare :=
  ((Arena.Reached.empty.call (.graft none _) ⟨.single 4 ∅ none, by decide⟩).call (.graft (some 0) gauge)
    ⟨assembled_gauge, by decide⟩).call (.remove 1) trivial

end Sample

theorem Arena.Reached.stands_for_tree_sample : Reached Sample.pairing Sample.bare ∧
    Sample.bare.IsTree Sample.pairing ∧
    (∃ place a', graft Sample.pairing (some 0) Sample.gauge Sample.bare = .ok (place 0) a' ∧
      Sample.bare.Grafted a' (some 0) Sample.gauge place ∧ [place 0, place 1] = [2, 1]) ∧
    ∃ e, remove Sample.pairing 1 Sample.bare = .error e Sample.bare := by
  obtain ⟨htree, hgraft, hremove⟩ := Reached.stands_for_tree Sample.reached_bare
  have hroot : (Sample.bare.node? 0).isSome = true := by decide +kernel
  have hgone : (Sample.bare.node? 1).isSome = false := by decide +kernel
  have hfree : Sample.bare.free = [2, 1] := by decide +kernel
  refine ⟨Sample.reached_bare, htree, ?_, ?_⟩
  · rcases hgraft (some 0) Sample.gauge Sample.assembled_gauge (by decide) with
      ⟨place, a', hrun, hgrafted⟩ | ⟨e, -, ⟨hnone, -⟩ | ⟨i, hi, hnone⟩⟩
    · have hslots := hgrafted.slots
      rw [hfree] at hslots
      exact ⟨place, a', hrun, hgrafted, hslots⟩
    · cases hnone
    · cases hi
      rw [hnone] at hroot
      cases hroot
  · rcases hremove 1 with ⟨r, freed, a', hr, -⟩ | ⟨e, hrun, -⟩
    · rw [hr] at hgone
      cases hgone
    · exact ⟨e, hrun⟩

end RuleMonitor
