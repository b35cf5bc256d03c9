import Mathlib.Data.List.Forall2
import Mathlib.Data.List.Nodup
import RuleMonitor.Instantiation.Node
import RuleMonitor.Proofs.Sentences

/-!
# Properties of all nodes

The functions on nodes recurse into lists of branches. What they do to a list is what the function on
lists of the same kind does, and nodes are reasoned about by induction on the branches.

* `Node.induct`: induction on nodes.
* `Node.cells_mk`, `Node.map_mk`, `Node.slots_perm`: the functions on nodes as functions on lists.
* `Formula.Every`: a property of every node of a tree that has the shape of a formula;
  **`Formula.Every.of_map`**: it carries over to trees that only differ in what it does not read.
-/

namespace RuleMonitor

namespace Node

@[elab_as_elim]
theorem induct {motive : Node → Prop}
    (mk : ∀ c kids, (∀ kid ∈ kids, motive kid) → motive (mk c kids)) : ∀ n, motive n := by
  intro n
  refine @Node.rec motive (fun kids => ∀ kid ∈ kids, motive kid) mk ?_ ?_ n
  · nofun
  · intro kid kids h hs k hk
    rcases List.mem_cons.mp hk with rfl | hk
    · exact h
    · exact hs k hk

@[simp] theorem cell_mk (c : Cell) (kids : List Node) : (mk c kids).cell = c := rfl

@[simp] theorem kids_mk (c : Cell) (kids : List Node) : (mk c kids).kids = kids := rfl

@[simp] theorem index_mk (c : Cell) (kids : List Node) : (mk c kids).index = c.index := rfl

theorem cellsAll_eq (kids : List Node) : cellsAll kids = kids.flatMap cells := by
  induction kids with
  | nil => rfl
  | cons n ns ih => rw [cellsAll, ih, List.flatMap_cons]

theorem cells_mk (c : Cell) (kids : List Node) : (mk c kids).cells = c :: kids.flatMap cells := by
  rw [cells, cellsAll_eq]

theorem subtreesAll_eq (kids : List Node) : subtreesAll kids = kids.flatMap subtrees := by
  induction kids with
  | nil => rfl
  | cons n ns ih => rw [subtreesAll, ih, List.flatMap_cons]

theorem subtrees_mk (c : Cell) (kids : List Node) :
    (mk c kids).subtrees = mk c kids :: kids.flatMap subtrees := by
  rw [subtrees, subtreesAll_eq]

theorem mapAll_eq (f : Cell → Cell) (kids : List Node) : mapAll f kids = kids.map (map f) := by
  induction kids with
  | nil => rfl
  | cons n ns ih => rw [mapAll, ih, List.map_cons]

theorem map_mk (f : Cell → Cell) (c : Cell) (kids : List Node) :
    (mk c kids).map f = mk (f c) (kids.map (map f)) := by
  rw [map, mapAll_eq]

@[simp] theorem cell_map (f : Cell → Cell) (n : Node) : (n.map f).cell = f n.cell := by
  obtain ⟨c, kids⟩ := n
  rw [map_mk, cell_mk, cell_mk]

theorem cell_comp_map (f : Cell → Cell) : cell ∘ map f = fun n => f n.cell :=
  funext (cell_map f)

@[simp] theorem kids_map (f : Cell → Cell) (n : Node) : (n.map f).kids = n.kids.map (map f) := by
  obtain ⟨c, kids⟩ := n
  rw [map_mk, kids_mk, kids_mk]

theorem cells_map (f : Cell → Cell) (n : Node) : (n.map f).cells = n.cells.map f := by
  induction n using induct with
  | mk c kids ih =>
    rw [map_mk, cells_mk, cells_mk, List.map_cons, List.flatMap_map, List.map_flatMap]
    exact congrArg _ (List.flatMap_congr fun kid hk => ih kid hk)

theorem map_map (f g : Cell → Cell) (n : Node) : (n.map f).map g = n.map (g ∘ f) := by
  induction n using induct with
  | mk c kids ih =>
    rw [map_mk, map_mk, map_mk, List.map_map]
    exact congrArg _ (List.map_congr_left fun kid hk => ih kid hk)

theorem map_congr {f g : Cell → Cell} {n : Node} (h : ∀ c ∈ n.cells, f c = g c) :
    n.map f = n.map g := by
  induction n using induct with
  | mk c kids ih =>
    rw [cells_mk, List.forall_mem_cons] at h
    rw [map_mk, map_mk, h.1]
    refine congrArg _ (List.map_congr_left fun kid hk => ih kid hk fun c hc => ?_)
    exact h.2 c (List.mem_flatMap.mpr ⟨kid, hk, hc⟩)

theorem map_eq_self {f : Cell → Cell} {n : Node} (h : ∀ c ∈ n.cells, f c = c) : n.map f = n := by
  induction n using induct with
  | mk c kids ih =>
    rw [cells_mk, List.forall_mem_cons] at h
    rw [map_mk, h.1]
    have hk : kids.map (map f) = kids.map id := List.map_congr_left fun kid hk =>
      ih kid hk fun c hc => h.2 c (List.mem_flatMap.mpr ⟨kid, hk, hc⟩)
    rw [hk, List.map_id]

theorem cell_mem_cells (n : Node) : n.cell ∈ n.cells := by
  obtain ⟨c, kids⟩ := n
  rw [cells_mk]
  exact List.mem_cons_self

theorem mem_cells_of_mem_kids {n kid : Node} {c : Cell} (hk : kid ∈ n.kids) (hc : c ∈ kid.cells) :
    c ∈ n.cells := by
  obtain ⟨c', kids⟩ := n
  rw [cells_mk]
  exact List.mem_cons_of_mem _ (List.mem_flatMap.mpr ⟨kid, hk, hc⟩)

theorem mem_subtrees_self (n : Node) : n ∈ n.subtrees := by
  obtain ⟨c, kids⟩ := n
  rw [subtrees_mk]
  exact List.mem_cons_self

theorem mem_subtrees_of_mem_kids {n kid m : Node} (hk : kid ∈ n.kids) (hm : m ∈ kid.subtrees) :
    m ∈ n.subtrees := by
  obtain ⟨c, kids⟩ := n
  rw [subtrees_mk]
  exact List.mem_cons_of_mem _ (List.mem_flatMap.mpr ⟨kid, hk, hm⟩)

theorem map_cell_subtrees (n : Node) : n.subtrees.map cell = n.cells := by
  induction n using induct with
  | mk c kids ih =>
    rw [subtrees_mk, cells_mk, List.map_cons, List.map_flatMap]
    exact congrArg _ (List.flatMap_congr fun kid hk => ih kid hk)

theorem cell_mem_cells_of_mem {n m : Node} (hm : m ∈ n.subtrees) : m.cell ∈ n.cells := by
  rw [← map_cell_subtrees]
  exact List.mem_map.mpr ⟨m, hm, rfl⟩

theorem cells_subset_of_mem {n m : Node} (hm : m ∈ n.subtrees) : m.cells ⊆ n.cells := by
  induction n using induct with
  | mk c kids ih =>
    rw [subtrees_mk, List.mem_cons, List.mem_flatMap] at hm
    rcases hm with rfl | ⟨kid, hk, hm⟩
    · exact List.Subset.refl _
    · exact fun c' hc => mem_cells_of_mem_kids (n := mk c kids) hk (ih kid hk hm hc)

/-! ## Slots -/

/-- The slots of all nodes, in pre-order. -/
def indices (n : Node) : List Nat :=
  n.cells.map (·.index)

theorem indices_mk (c : Cell) (kids : List Node) :
    (mk c kids).indices = c.index :: kids.flatMap indices := by
  rw [indices, cells_mk, List.map_cons, List.map_flatMap]
  rfl

theorem index_mem_indices (n : Node) : n.index ∈ n.indices :=
  List.mem_map.mpr ⟨n.cell, n.cell_mem_cells, rfl⟩

theorem mem_indices_of_mem_kids {n kid : Node} {i : Nat} (hk : kid ∈ n.kids) (hi : i ∈ kid.indices) :
    i ∈ n.indices := by
  obtain ⟨c, kids⟩ := n
  rw [indices_mk]
  exact List.mem_cons_of_mem _ (List.mem_flatMap.mpr ⟨kid, hk, hi⟩)

theorem nodup_indices_kid {n kid : Node} (hd : n.indices.Nodup) (hk : kid ∈ n.kids) :
    kid.indices.Nodup := by
  obtain ⟨c, kids⟩ := n
  rw [indices_mk, List.nodup_cons] at hd
  exact (List.nodup_flatMap.mp hd.2).1 kid hk

theorem nodup_indices_of_mem {n m : Node} (hd : n.indices.Nodup) (hm : m ∈ n.subtrees) :
    m.indices.Nodup := by
  induction n using induct with
  | mk c kids ih =>
    rw [subtrees_mk, List.mem_cons, List.mem_flatMap] at hm
    rcases hm with rfl | ⟨kid, hk, hm⟩
    · exact hd
    · exact ih kid hk (nodup_indices_kid hd hk) hm

theorem nodup_index_kids {n : Node} (hd : n.indices.Nodup) : (n.kids.map index).Nodup := by
  obtain ⟨c, kids⟩ := n
  rw [indices_mk, List.nodup_cons] at hd
  obtain ⟨-, hp⟩ := List.nodup_flatMap.mp hd.2
  rw [List.Nodup, List.pairwise_map]
  refine hp.imp fun {a b} hab e => ?_
  exact hab a.index_mem_indices (e ▸ b.index_mem_indices)

theorem slots_perm (n : Node) : n.slots.Perm n.indices := by
  induction n using induct with
  | mk c kids ih =>
    rw [slots, indices_mk]
    refine List.Perm.cons _ ?_
    induction kids with
    | nil => exact .refl _
    | cons kid kids ihs =>
      rw [slotsAll, List.flatMap_cons]
      refine List.perm_append_comm.trans ?_
      exact (ih kid List.mem_cons_self).append (ihs fun k hk => ih k (List.mem_cons_of_mem _ hk))

theorem indices_eq_of_map {g : Cell → Cell} (hg : ∀ c, (g c).index = c.index) {n n' : Node}
    (h : n.map g = n'.map g) : n.indices = n'.indices := by
  have hm : ∀ m : Node, m.indices = (m.map g).indices := by
    intro m
    rw [indices, indices, cells_map, List.map_map]
    exact List.map_congr_left fun c _ => (hg c).symm
  rw [hm n, hm n', h]

/-! ## The node in a slot -/

theorem findAll?_eq (i : Nat) (kids : List Node) : findAll? i kids = kids.findSome? (find? i) := by
  induction kids with
  | nil => rfl
  | cons kid kids ih =>
    rw [findAll?, ih, List.findSome?_cons]
    cases find? i kid <;> rfl

theorem find?_mk (i : Nat) (c : Cell) (kids : List Node) :
    (mk c kids).find? i = if c.index = i then some (mk c kids) else kids.findSome? (find? i) := by
  rw [find?, findAll?_eq]

theorem find?_eq_none {i : Nat} {n : Node} (h : i ∉ n.indices) : n.find? i = none := by
  induction n using induct with
  | mk c kids ih =>
    rw [indices_mk, List.mem_cons, not_or, List.mem_flatMap] at h
    rw [find?_mk, if_neg fun e => h.1 e.symm, List.findSome?_eq_none_iff]
    exact fun kid hk => ih kid hk fun hi => h.2 ⟨kid, hk, hi⟩

/-- **A node is found** in its slot. -/
theorem find?_of_mem {n m : Node} (hd : n.indices.Nodup) (hm : m ∈ n.subtrees) :
    n.find? m.index = some m := by
  induction n using induct with
  | mk c kids ih =>
    rw [subtrees_mk, List.mem_cons, List.mem_flatMap] at hm
    rcases hm with rfl | ⟨kid, hk, hm⟩
    · rw [find?_mk, index_mk, if_pos rfl]
    · have hmem : m.index ∈ kid.indices :=
        List.mem_map.mpr ⟨m.cell, cell_mem_cells_of_mem hm, rfl⟩
      have hfind := ih kid hk (nodup_indices_kid hd hk) hm
      rw [indices_mk, List.nodup_cons] at hd
      obtain ⟨l, r, rfl⟩ := List.append_of_mem hk
      have hnone : ∀ k ∈ l, k.find? m.index = none := fun k hkl => find?_eq_none fun h => by
        rw [List.flatMap_append, List.nodup_append] at hd
        exact hd.2.2.2 _ (List.mem_flatMap.mpr ⟨k, hkl, h⟩) _
          (List.mem_flatMap.mpr ⟨kid, List.mem_cons_self, hmem⟩) rfl
      have hne : c.index ≠ m.index := fun e => hd.1 (e ▸ List.mem_flatMap.mpr ⟨kid, hk, hmem⟩)
      rw [find?_mk, if_neg hne, List.findSome?_append, List.findSome?_eq_none_iff.mpr hnone,
        List.findSome?_cons, hfind]
      rfl

end Node

/-! ## Every node of an instance -/

namespace Formula

/-- The tree has the shape of the formula, and a property of a node with its branches holds of every
node. -/
def Every (p : Formula → Cell → List Node → Prop) : Formula → Node → Prop
  | f@(quantified _ _ body), .mk c kids => p f c kids ∧ ∀ kid ∈ kids, Every p body kid
  | f@(binary _ _ left right), .mk c kids =>
    p f c kids ∧ ∃ a b, kids = [a, b] ∧ Every p left a ∧ Every p right b
  | f@(negation _ body), .mk c kids => p f c kids ∧ ∃ a, kids = [a] ∧ Every p body a
  | f@(application ..), .mk c kids => p f c kids ∧ kids = []

variable {p p' : Formula → Cell → List Node → Prop} {f : Formula} {n n' : Node}

theorem Every.root (h : f.Every p n) : p f n.cell n.kids := by
  obtain ⟨c, kids⟩ := n
  cases f <;> exact h.1

section Kids

variable {i : Nat} {op : Connective} {left right body : Formula} {c : Cell} {a b : Node}

theorem every_binary : (binary i op left right).Every p (.mk c [a, b]) ↔
    p (binary i op left right) c [a, b] ∧ left.Every p a ∧ right.Every p b := by
  refine and_congr_right fun _ => ⟨fun ⟨_, _, e, h⟩ => ?_, fun h => ⟨a, b, rfl, h⟩⟩
  cases e
  exact h

theorem every_negation : (negation i body).Every p (.mk c [a]) ↔
    p (negation i body) c [a] ∧ body.Every p a := by
  refine and_congr_right fun _ => ⟨fun ⟨_, e, h⟩ => ?_, fun h => ⟨a, rfl, h⟩⟩
  cases e
  exact h

end Kids

theorem Every.imp (hp : ∀ g ∈ f.subformulas, ∀ m ∈ n.subtrees, p g m.cell m.kids →
    p' g m.cell m.kids) : f.Every p n → f.Every p' n := by
  induction f generalizing n with
  | quantified i q body ih =>
    obtain ⟨c, kids⟩ := n
    refine fun h => ⟨hp _ (mem_subformulas_self _) _ (Node.mem_subtrees_self _) h.1, fun kid hk =>
      ih (fun g hg m hm => ?_) (h.2 kid hk)⟩
    exact hp g (List.mem_cons_of_mem _ hg) m (Node.mem_subtrees_of_mem_kids hk hm)
  | binary i op left right ihl ihr =>
    obtain ⟨c, kids⟩ := n
    rintro ⟨h, a, b, rfl, ha, hb⟩
    refine ⟨hp _ (mem_subformulas_self _) _ (Node.mem_subtrees_self _) h, a, b, rfl,
      ihl (fun g hg m hm => ?_) ha, ihr (fun g hg m hm => ?_) hb⟩
    · exact hp g (List.mem_cons_of_mem _ (List.mem_append_left _ hg)) m
        (Node.mem_subtrees_of_mem_kids (by simp) hm)
    · exact hp g (List.mem_cons_of_mem _ (List.mem_append_right _ hg)) m
        (Node.mem_subtrees_of_mem_kids (by simp) hm)
  | negation i body ih =>
    obtain ⟨c, kids⟩ := n
    rintro ⟨h, a, rfl, ha⟩
    refine ⟨hp _ (mem_subformulas_self _) _ (Node.mem_subtrees_self _) h, a, rfl,
      ih (fun g hg m hm => ?_) ha⟩
    exact hp g (List.mem_cons_of_mem _ hg) m (Node.mem_subtrees_of_mem_kids (by simp) hm)
  | application i a =>
    obtain ⟨c, kids⟩ := n
    exact fun h => ⟨hp _ (mem_subformulas_self _) _ (Node.mem_subtrees_self _) h.1, h.2⟩

theorem Every.exists_of_mem (h : f.Every p n) : ∀ m ∈ n.subtrees,
    ∃ g ∈ f.subformulas, p g m.cell m.kids := by
  induction f generalizing n with
  | quantified i q body ih =>
    obtain ⟨c, kids⟩ := n
    rw [Node.subtrees_mk, List.forall_mem_cons, List.forall_mem_flatMap]
    refine ⟨⟨_, mem_subformulas_self _, h.1⟩, fun kid hk m hm => ?_⟩
    obtain ⟨g, hg, hp⟩ := ih (h.2 kid hk) m hm
    exact ⟨g, List.mem_cons_of_mem _ hg, hp⟩
  | binary i op left right ihl ihr =>
    obtain ⟨c, kids⟩ := n
    obtain ⟨hp, a, b, rfl, ha, hb⟩ := h
    rw [Node.subtrees_mk, List.forall_mem_cons, List.forall_mem_flatMap]
    refine ⟨⟨_, mem_subformulas_self _, hp⟩, fun kid hk m hm => ?_⟩
    rcases List.mem_pair.mp hk with rfl | rfl
    · obtain ⟨g, hg, hp⟩ := ihl ha m hm
      exact ⟨g, List.mem_cons_of_mem _ (List.mem_append_left _ hg), hp⟩
    · obtain ⟨g, hg, hp⟩ := ihr hb m hm
      exact ⟨g, List.mem_cons_of_mem _ (List.mem_append_right _ hg), hp⟩
  | negation i body ih =>
    obtain ⟨c, kids⟩ := n
    obtain ⟨hp, a, rfl, ha⟩ := h
    rw [Node.subtrees_mk, List.forall_mem_cons, List.forall_mem_flatMap]
    refine ⟨⟨_, mem_subformulas_self _, hp⟩, fun kid hk m hm => ?_⟩
    obtain rfl := List.mem_singleton.mp hk
    obtain ⟨g, hg, hp⟩ := ih ha m hm
    exact ⟨g, List.mem_cons_of_mem _ hg, hp⟩
  | application i a =>
    obtain ⟨c, kids⟩ := n
    obtain ⟨hp, rfl⟩ := h
    rw [Node.subtrees_mk, List.forall_mem_cons]
    exact ⟨⟨_, mem_subformulas_self _, hp⟩, nofun⟩

/-- What holds of every node of a tree holds of every node of the trees in it. -/
theorem Every.trees (h : f.Every p n) : f.Every (fun g c kids => g.Every p (.mk c kids)) n := by
  induction f generalizing n with
  | quantified i q body ih =>
    obtain ⟨c, kids⟩ := n
    exact ⟨h, fun kid hk => ih (h.2 kid hk)⟩
  | binary i op left right ihl ihr =>
    obtain ⟨c, kids⟩ := n
    have hself := h
    obtain ⟨-, a, b, rfl, ha, hb⟩ := h
    exact ⟨hself, a, b, rfl, ihl ha, ihr hb⟩
  | negation i body ih =>
    obtain ⟨c, kids⟩ := n
    have hself := h
    obtain ⟨-, a, rfl, ha⟩ := h
    exact ⟨hself, a, rfl, ih ha⟩
  | application i a =>
    obtain ⟨c, kids⟩ := n
    exact ⟨h, h.2⟩

theorem Every.and (h : f.Every p n) (h' : f.Every p' n) :
    f.Every (fun f c kids => p f c kids ∧ p' f c kids) n := by
  induction f generalizing n with
  | quantified i q body ih =>
    obtain ⟨c, kids⟩ := n
    exact ⟨⟨h.1, h'.1⟩, fun kid hk => ih (h.2 kid hk) (h'.2 kid hk)⟩
  | binary i op left right ihl ihr =>
    obtain ⟨c, kids⟩ := n
    obtain ⟨h, a, b, rfl, ha, hb⟩ := h
    obtain ⟨h', ha', hb'⟩ := every_binary.mp h'
    exact ⟨⟨h, h'⟩, a, b, rfl, ihl ha ha', ihr hb hb'⟩
  | negation i body ih =>
    obtain ⟨c, kids⟩ := n
    obtain ⟨h, a, rfl, ha⟩ := h
    obtain ⟨h', ha'⟩ := every_negation.mp h'
    exact ⟨⟨h, h'⟩, a, rfl, ih ha ha'⟩
  | application i a =>
    obtain ⟨c, kids⟩ := n
    exact ⟨⟨h.1, h'.1⟩, h.2⟩

theorem Every.map {h : Cell → Cell}
    (hn : f.Every (fun g c kids => p g (h c) (kids.map (Node.map h))) n) : f.Every p (n.map h) := by
  induction f generalizing n with
  | quantified i q body ih =>
    obtain ⟨c, kids⟩ := n
    rw [Node.map_mk]
    refine ⟨hn.1, fun kid hk => ?_⟩
    obtain ⟨kid₀, hk₀, rfl⟩ := List.mem_map.mp hk
    exact ih (hn.2 kid₀ hk₀)
  | binary i op left right ihl ihr =>
    obtain ⟨c, kids⟩ := n
    obtain ⟨hc, a, b, rfl, ha, hb⟩ := hn
    rw [Node.map_mk]
    exact ⟨hc, _, _, rfl, ihl ha, ihr hb⟩
  | negation i body ih =>
    obtain ⟨c, kids⟩ := n
    obtain ⟨hc, a, rfl, ha⟩ := hn
    rw [Node.map_mk]
    exact ⟨hc, _, rfl, ih ha⟩
  | application i a =>
    obtain ⟨c, kids⟩ := n
    obtain ⟨hc, rfl⟩ := hn
    rw [Node.map_mk]
    exact ⟨hc, rfl⟩

theorem Every.onCell {h : Cell → Cell} (hp : p f n.cell n.kids → p f (h n.cell) n.kids)
    (hn : f.Every p n) : f.Every p (n.onCell h) := by
  obtain ⟨c, kids⟩ := n
  cases f with
  | quantified i q body => exact ⟨hp hn.1, hn.2⟩
  | binary i op left right => exact ⟨hp hn.1, hn.2⟩
  | negation i body => exact ⟨hp hn.1, hn.2⟩
  | application i a => exact ⟨hp hn.1, hn.2⟩

/-- **A property of every node** carries over to a tree that only differs in what it does not read. -/
theorem Every.of_map {g g' : Cell → Cell}
    (hp : ∀ f c c' kids kids', g c = g' c' →
      kids.map (fun kid => g kid.cell) = kids'.map (fun kid => g' kid.cell) →
      p f c kids → p' f c' kids')
    (e : n.map g = n'.map g') (h : f.Every p n) : f.Every p' n' := by
  induction f generalizing n n' with
  | quantified i q body ih =>
    obtain ⟨c, kids⟩ := n
    obtain ⟨c', kids'⟩ := n'
    rw [Node.map_mk, Node.map_mk, Node.mk.injEq] at e
    have hk := congrArg (List.map Node.cell) e.2
    rw [List.map_map, List.map_map, Node.cell_comp_map, Node.cell_comp_map] at hk
    refine ⟨hp _ c c' kids kids' e.1 hk h.1, fun kid' hk' => ?_⟩
    · have hm : kid'.map g' ∈ kids.map (Node.map g) := by
        rw [e.2]
        exact List.mem_map.mpr ⟨kid', hk', rfl⟩
      obtain ⟨kid, hk, hkk⟩ := List.mem_map.mp hm
      exact ih hkk (h.2 kid hk)
  | binary i op left right ihl ihr =>
    obtain ⟨c, kids⟩ := n
    obtain ⟨c', kids'⟩ := n'
    rw [Node.map_mk, Node.map_mk, Node.mk.injEq] at e
    obtain ⟨h, a, b, rfl, ha, hb⟩ := h
    have hk := congrArg (List.map Node.cell) e.2
    obtain ⟨a', b', rfl⟩ : ∃ a' b', kids' = [a', b'] := by
      have hl : kids'.length = 2 := by simpa using (congrArg List.length e.2).symm
      exact List.length_eq_two.mp hl
    simp only [List.map_cons, List.map_nil, List.cons.injEq, and_true] at e
    exact ⟨hp _ c c' _ _ e.1 (by simpa using hk) h, a', b', rfl, ihl e.2.1 ha, ihr e.2.2 hb⟩
  | negation i body ih =>
    obtain ⟨c, kids⟩ := n
    obtain ⟨c', kids'⟩ := n'
    rw [Node.map_mk, Node.map_mk, Node.mk.injEq] at e
    obtain ⟨h, a, rfl, ha⟩ := h
    have hk := congrArg (List.map Node.cell) e.2
    obtain ⟨a', rfl⟩ : ∃ a', kids' = [a'] := by
      have hl : kids'.length = 1 := by simpa using (congrArg List.length e.2).symm
      exact List.length_eq_one_iff.mp hl
    simp only [List.map_cons, List.map_nil, List.cons.injEq, and_true] at e
    exact ⟨hp _ c c' _ _ e.1 (by simpa using hk) h, a', rfl, ih e.2 ha⟩
  | application i a =>
    obtain ⟨c, kids⟩ := n
    obtain ⟨c', kids'⟩ := n'
    rw [Node.map_mk, Node.map_mk, Node.mk.injEq] at e
    have hk := congrArg (List.map Node.cell) e.2
    obtain ⟨h, rfl⟩ := h
    have hl : kids' = [] := by simpa using (congrArg List.length e.2).symm
    exact ⟨hp _ c c' _ _ e.1 (by simpa using hk) h, hl⟩

end Formula

end RuleMonitor
