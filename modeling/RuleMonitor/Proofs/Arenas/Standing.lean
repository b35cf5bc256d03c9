import RuleMonitor.Proofs.Arenas.Calls
import RuleMonitor.Proofs.Arenas.Consistency
import RuleMonitor.Proofs.Arenas.Fragments
import RuleMonitor.Proofs.Evaluation.Writing

/-!
# Instantiations that arenas stand for

What is done to an instantiation can be done to an arena that stands for it, by calls. So if calls lead
to an arena that stands for an instantiation, then further calls lead to one that stands for what edits,
evaluation and explanation make of it, even if they fail on the way.

* `Tree.Stands`: an arena that calls lead to stands for the instantiation.
* `Tree.Stands.graft`, `Tree.Stands.remove`, `Tree.Stands.touch`, `Tree.Stands.apply`,
  `Tree.Stands.commit`, `Tree.Stands.rebind`, `Tree.Stands.renameLinks`: one call.
* **`Tree.Stands.editAll`**: edits in a row.
* `Node.plug`: a node in a hole; **`Tree.Stands.written`**: nodes that evaluation wrote to.
* **`Tree.Stands.exists_check`**: the check of the instantiation is that of the arena.
-/

namespace RuleMonitor

open Std (ExtTreeSet)

/-! ## A node in a hole -/

namespace Node

/-- The cells above a hole, the root first, each with the branches before and behind the hole. -/
abbrev Hole := List (Cell × List Node × List Node)

/-- The root, with a node in the hole. -/
def plug : Hole → Node → Node
  | [], n => n
  | (c, l, r) :: hole, n => .mk c (l ++ plug hole n :: r)

theorem plug_append (hole hole' : Hole) (n : Node) :
    plug (hole ++ hole') n = plug hole (plug hole' n) := by
  induction hole with
  | nil => rfl
  | cons frame hole ih => rw [List.cons_append, plug, plug, ih]

theorem exists_way_plug {hole : Hole} {n : Node} (hd : (plug hole n).indices.Nodup) :
    ∃ way, (plug hole n).follow? way = some n ∧
      ∀ f, (plug hole n).update? f way = some (plug hole (f n)) := by
  induction hole with
  | nil => exact ⟨[], rfl, fun _ => rfl⟩
  | cons frame hole ih =>
    obtain ⟨c, l, r⟩ := frame
    have hl := index_ne_of_nodup hd
    obtain ⟨way, hway, hupdate⟩ := ih (nodup_indices_kid hd (List.mem_append_right _ List.mem_cons_self))
    refine ⟨(plug hole n).index :: way, ?_, fun f => Tree.update?_node hl (hupdate f)⟩
    rw [plug, follow?, Tree.find?_append hl, Option.bind_some, hway]

end Node

namespace Tree

open Arena (Reached Holds Call)
open Node (plug Hole Written)

variable {s : Sentence} {t t' : Tree} {n m : Node} {lineage : List Nat}

/-- An arena that calls lead to, starting with an empty one, stands for the instantiation. -/
def Stands (s : Sentence) (t : Tree) : Prop :=
  ∃ a, Reached s a ∧ a.tree = t

theorem stands_empty (s : Sentence) : Stands s {} :=
  ⟨_, .empty, (Holds.empty s).tree_eq⟩

theorem Stands.exists_holds (h : t.Stands s) : ∃ a, Reached s a ∧ Holds s a t := by
  obtain ⟨a, ha, rfl⟩ := h
  exact ⟨a, ha, ha.holds⟩

theorem Stands.owns (h : t.Stands s) : t.Owns t.indices := by
  obtain ⟨a, -, ha⟩ := h.exists_holds
  exact ha.full

/-- **The check of an instantiation** is that of an arena that stands for it. -/
theorem Stands.exists_check (h : t.Stands s) : ∃ a, Reached s a ∧ a.tree = t ∧ t.check s = a.check s := by
  obtain ⟨a, hreached, ha⟩ := h.exists_holds
  exact ⟨a, hreached, ha.tree_eq, check_eq_of_carries ha.toCarries⟩

/-! ## Calls -/

/-- **A call** that does to the arena what was done to the instantiation. -/
theorem Stands.call (h : t.Stands s) (x : Call)
    (hx : ∀ a, Holds s a t → x.Allowed s a ∧ Holds s (x.after s a) t') : t'.Stands s := by
  obtain ⟨a, hreached, ha⟩ := h.exists_holds
  exact ⟨_, hreached.call x (hx a ha).1, (hx a ha).2.tree_eq⟩

theorem Stands.graft (h : t.Stands s) (parent : Option Nat) (fr : Fragment) :
    Stands s ((Tree.graft s parent fr).after t) := by
  rcases Arena.find?_parts_cases s fr with hf | ⟨r, hr, -⟩
  · exact h.call (.graft parent fr.parts) fun a ha =>
      ⟨⟨fr.assembled_parts, hf⟩, (Arena.simulates_graft s parent fr a t ha).after⟩
  · obtain ⟨a, hreached, ha⟩ := h.exists_holds
    have hafter := (Arena.simulates_graft s parent fr a t ha).after
    rw [Arena.after_graft_of_unknown parent hr] at hafter
    exact ⟨a, hreached, hafter.tree_eq⟩

theorem Stands.remove (h : t.Stands s) (i : Nat) : Stands s ((Tree.remove i).after t) :=
  h.call (.remove i) fun a ha => ⟨trivial, (Arena.simulates_remove i a t ha).after⟩

theorem Stands.touch (h : t.Stands s) (i : Nat) : Stands s ((Tree.touch i).after t) :=
  h.call (.touch i) fun a ha =>
    ⟨trivial, (Arena.simulates_touch i a t (⟨ha, List.nil_subset _⟩ : Arena.HoldsWith s [] a t)).after.1⟩

theorem Stands.apply (h : t.Stands s) {f : Findings} (hf : f.substantial ⊆ t.indices) (stage : Stage) :
    Stands s ((Tree.apply f stage).after t) :=
  h.call (.apply f stage) fun a ha =>
    ⟨fun _ hi => ha.mem_indices_iff.mp (hf hi), (Arena.simulates_apply f stage a t ⟨ha, hf⟩).after.1⟩

theorem Stands.commit (h : t.Stands s) : t.commit.Stands s :=
  h.call .commit fun a ha => ⟨trivial, (Arena.simulates_commit a t ha).after⟩

theorem Stands.rebind (h : t.Stands s) (i : Nat) (var : String) (c : Context) :
    Stands s ((Tree.rebind i var c).after t) :=
  h.call (.rebind i var c) fun a ha => ⟨trivial, (Arena.simulates_rebind i var c a t ha).after⟩

theorem Stands.renameLinks (h : t.Stands s) (var : String) (old new : Nat) :
    (t.renameLinks var old new).Stands s :=
  h.call (.renameLinks var old new) fun _ ha => ⟨trivial, ha.renameLinks var old new⟩

theorem Stands.beginCycle (h : t.Stands s) : t.beginCycle.Stands s :=
  h.call .beginCycle fun _ ha => ⟨trivial, ha.beginCycle⟩

/-! ## Edits -/

theorem changeAt_error {f : Node → Node} (hm : t.atLineage? lineage = none) :
    changeAt lineage f t = .error (notLive (lineage.headD 0)) t := by
  have hnone : t.update? lineage f = none := by
    by_contra hne
    obtain ⟨t', hu⟩ := Option.ne_none_iff_exists'.mp hne
    obtain ⟨n, ht⟩ := exists_root_of_update? hu
    obtain ⟨way, n', hway, hn', -⟩ := exists_of_update? hu ht
    obtain ⟨p, -, hp, -⟩ := Node.indices_of_update? hn'
    cases hm.symm.trans (hway.trans hp)
  unfold changeAt
  rw [Routine.get_bind, hnone]
  rfl

theorem removeAt_error (hm : t.atLineage? lineage = none) :
    removeAt lineage t = .error (notLive (lineage.headD 0)) t := by
  unfold removeAt
  rw [Routine.get_bind, hm]
  rfl

theorem graftAt_error_of_parent (hm : t.atLineage? lineage = none) (fr : Fragment) :
    graftAt s (some lineage) fr t = .error (notLive (lineage.headD 0)) t := by
  unfold graftAt
  rw [Routine.get_bind]
  simp only [hm, Option.isNone_none, if_true]
  rfl

theorem Stands.graftAt (h : t.Stands s) (lineage : List Nat) (fr : Fragment) :
    Stands s ((Tree.graftAt s (some lineage) fr).after t) := by
  cases hm : t.atLineage? lineage with
  | none => rwa [Routine.after_eq_of_error (graftAt_error_of_parent hm fr)]
  | some m =>
    have hgraft := h.graft (some m.index) fr
    rwa [Tree.graft, Routine.after_bind_ok (lineage_of_atLineage? h.owns.nodup hm)] at hgraft

/-- **An edit** does to the node with a lineage what a call does to that in its slot. -/
theorem Stands.edit (h : t.Stands s) (e : Edit) : Stands s ((Tree.edit s e).after t) := by
  cases e with
  | touch lineage =>
    change Stands s ((changeAt lineage Node.touch).after t)
    cases hm : t.atLineage? lineage with
    | none => rwa [Routine.after_eq_of_error (changeAt_error hm)]
    | some m =>
      have htouch := h.touch m.index
      rwa [Tree.touch, Tree.change, Routine.after_bind_ok (lineage_of_atLineage? h.owns.nodup hm)] at htouch
  | remove lineage =>
    change Stands s ((removeAt lineage).after t)
    cases hm : t.atLineage? lineage with
    | none => rwa [Routine.after_eq_of_error (removeAt_error hm)]
    | some m =>
      have hremove := h.remove m.index
      rwa [Tree.remove, Routine.after_bind_ok (lineage_of_atLineage? h.owns.nodup hm)] at hremove
  | graft lineage fr =>
    have hgraft := h.graftAt lineage fr
    unfold Tree.edit
    cases hrun : Tree.graftAt s (some lineage) fr t with
    | ok slot t₁ =>
      rw [Routine.after_eq hrun] at hgraft
      rwa [Routine.after_bind_ok hrun]
    | error failure t₁ =>
      rw [Routine.after_eq_of_error hrun] at hgraft
      rwa [Routine.after_bind_error hrun]

/-- **Edits in a row**, up to the first one that fails. -/
theorem Stands.editAll (h : t.Stands s) (es : List Edit) : Stands s ((Tree.editAll s es).after t) := by
  induction es generalizing t with
  | nil => exact h
  | cons e es ih =>
    have hedit := h.edit e
    unfold Tree.editAll
    cases he : Tree.edit s e t with
    | ok u t₁ =>
      rw [Routine.after_eq he] at hedit
      rw [Routine.after_bind_ok he]
      exact ih hedit
    | error failure t₁ =>
      rw [Routine.after_eq_of_error he] at hedit
      rwa [Routine.after_bind_error he]

/-! ## What evaluation writes -/

theorem change_plug {hole : Hole} (hd : t.indices.Nodup) (ht : t.root = some (plug hole n)) (f : Node → Node) :
    Tree.change n.index f t = .ok ⟨⟩ { t with root := some (plug hole (f n)) } := by
  obtain ⟨way, hway, hupdate⟩ := Node.exists_way_plug (indices_of_root ht ▸ hd)
  have hlineage : ((plug hole n).index :: way).reverse.reverse = (plug hole n).index :: way :=
    List.reverse_reverse _
  have hat : t.atLineage? ((plug hole n).index :: way).reverse = some n :=
    (atLineage?_eq_some ht).mpr ⟨way, hlineage, hway⟩
  unfold Tree.change
  rw [Routine.bind_ok (lineage_of_atLineage? hd hat)]
  exact changeAt_ok.mpr ((update?_eq_some ht).mpr ⟨way, _, hlineage, hupdate f, rfl⟩)

theorem markSubstantial_nil (t : Tree) : t.markSubstantial [] = t := by
  rw [markSubstantial, ExtTreeSet.insertMany_nil]

theorem Stands.find (h : t.Stands s) (f : Findings) (stage : Stage) (hf : f.substantial = [])
    (hrun : Tree.apply f stage t = .ok ⟨⟩ (t'.markSubstantial [])) : t'.Stands s := by
  have happly := h.apply (f := f) (hf ▸ List.nil_subset _) stage
  rwa [Routine.after_eq hrun, markSubstantial_nil] at happly

/-- **Nodes that were written to**, in a hole. -/
theorem Stands.plug_written (hw : Written n m) : ∀ (t : Tree) (hole : Hole), t.Stands s →
    t.root = some (plug hole n) → Stands s { t with root := some (plug hole m) } := by
  induction hw with
  | refl n =>
    intro t hole h ht
    rwa [← ht]
  | trans _ _ ih ih' =>
    intro t hole h ht
    have hlast := ih' _ hole (ih t hole h ht) rfl
    exact hlast
  | truth c kids stage truth =>
    intro t hole h ht
    have hchange := change_plug h.owns.nodup ht (Node.onCell (·.write stage truth))
    exact h.find { truths := [(c.index, truth)] } stage rfl
      (Routine.bind_ok (Routine.bind_ok hchange))
  | branchTruth c kids id truth =>
    intro t hole h ht
    have hchange := change_plug h.owns.nodup ht
      (Node.onCell fun c => { c with branchTruths := c.branchTruths.insert id truth })
    exact h.find { branchTruths := [(c.index, id, truth)] } .commit rfl
      (Routine.bind_ok (Routine.bind_ok hchange))
  | links c kids links =>
    intro t hole h ht
    have hchange := change_plug h.owns.nodup ht (Node.onCell fun c => { c with links := some links })
    exact h.find { links := [(c.index, links)] } .commit rfl
      (Routine.bind_ok (Routine.bind_ok hchange))
  | branch c l r _ ih =>
    intro t hole h ht
    have hplug : ∀ k : Node, plug hole (.mk c (l ++ k :: r)) = plug (hole ++ [(c, l, r)]) k := fun k =>
      (Node.plug_append hole [(c, l, r)] k).symm
    rw [hplug] at ht ⊢
    exact ih t _ h ht

/-- **What evaluation answers** for the root. -/
theorem Stands.written (h : t.Stands s) (ht : t.root = some n) (hw : n.Written m) :
    Stands s { t with root := some m } :=
  plug_written hw t [] h ht

/-- **What an explanation answers** for the root, with the nodes visited. -/
theorem Stands.explained {e : Explained} (h : t.Stands s) (ht : t.root = some n)
    (he : Setting.Visits n e) : Stands s ({ t with root := some e.node }.markSubstantial e.visited) := by
  have hwritten := h.written ht he.written
  have hvisited : e.visited ⊆ Tree.indices { t with root := some e.node } := by
    rw [indices_of_root (t := { t with root := some e.node }) rfl, he.written.indices_eq]
    exact he.visited
  exact hwritten.apply (f := { substantial := e.visited }) hvisited .commit

end Tree

end RuleMonitor
