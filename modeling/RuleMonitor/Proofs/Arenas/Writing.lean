import RuleMonitor.Proofs.Arenas.Holding
import RuleMonitor.Proofs.Links

/-!
# What is written to the slots

What evaluation found is written node by node, and a truth that waits is committed where the table of
the arena has it. A context that takes the place of another one is written to all nodes below a branch,
and to the node above.

* **`Arena.simulates_touch`**, **`Arena.simulates_apply`**, **`Arena.simulates_commit`**.
* `Arena.Holds.beginCycle`, `Arena.Holds.renameLinks`.
* **`Arena.simulates_rebind`**: the walk below the branch, and the node above it.
-/

namespace RuleMonitor

open Std (ExtTreeMap ExtTreeSet)

/-- Links that do not mention a binding stay as they are when it is renamed. -/
theorem LinkSet.rename_of_not_mentions {l : LinkSet} {v : String} {old new : Nat}
    (h : l.mentions v old = false) : l.rename v old new = l := by
  have hlink : ∀ m ∈ l, m.rename v old new = m := fun m hm => by
    have hnot := List.any_eq_false.mp h m (ExtTreeSet.mem_toList.mpr hm)
    rw [Link.rename, if_neg fun e => hnot (decide_eq_true e)]
  refine ext_mem fun m => mem_rename.trans ⟨?_, fun hm => ⟨m, hm, hlink m hm⟩⟩
  rintro ⟨m₀, hm₀, rfl⟩
  rwa [hlink m₀ hm₀]

theorem Tree.rebind_ok {t t' : Tree} {m : Node} {i : Nat} {above : List Nat} {var : String} {c : Context}
    (hlineage : Tree.lineage i t = .ok (i :: above) t) (hm : t.atLineage? (i :: above) = some m)
    (hu : t.update? (i :: above) (Node.rebound var c) = some t') :
    Tree.rebind i var c t = .ok ⟨⟩ (m.cell.bound.elim t' fun old =>
      t'.update above (Node.onCell (·.rebindBranch old c.id))) := by
  unfold Tree.rebind
  rw [Routine.bind_ok hlineage, Routine.get_bind, hm, Option.bind_some]
  cases m.cell.bound <;> exact Routine.bind_ok (Tree.changeAt_ok.mpr hu)

namespace Arena

variable {s : Sentence} {slots : List Nat}

theorem simulates_touch (i : Nat) :
    Routine.Simulates (HoldsWith s slots) (touch i) (Tree.touch i) := by
  have htouch : Node.touch = Node.onCell fun c => { c with fresh := 0, pruned := false } := by
    funext ⟨c, kids⟩
    rfl
  unfold touch Tree.touch
  rw [htouch]
  exact simulates_alter (fun _ => rfl) (fun _ => rfl) (fun _ => rfl) fun _ _ _ => rfl

theorem simulates_write (i : Nat) (stage : Stage) (truth : Truth) :
    Routine.Simulates (HoldsWith s slots)
      (do alter i (·.write stage truth); modify (·.await stage i))
      (Tree.change i (·.onCell fun c => c.write stage truth)) := by
  refine simulates_change (fun c => by cases stage <;> rfl)
    (fun a ha => Routine.bind_error (alter_error ha)) fun a p c ks hc hhas => ?_
  refine ⟨_, Routine.bind_ok (alter_ok (hc ▸ hhas.node)), ?_, fun j hj => ?_, ?_⟩
  · cases stage with
    | commit => exact rewritten_amend a i _
    | hold => exact ⟨rfl, (rewritten_amend a i _).length, rfl, rfl, rfl⟩
  · cases stage with
    | commit => exact same_amend a _ hj
    | hold =>
      refine ⟨(same_amend a _ hj).node, ?_, fun _ => .rfl⟩
      change j ∈ a.staged.insert i ↔ _
      simp [Ne.symm hj]
  · cases stage with
    | commit =>
      refine ⟨?_, hhas.staged, hhas.quantified⟩
      change (a.amend i _).node? c.index = _
      rw [node?_amend, if_pos hc.symm, hhas.node]
      rfl
    | hold =>
      refine ⟨?_, ?_, hhas.quantified⟩
      · change (a.amend i _).node? c.index = _
        rw [node?_amend, if_pos hc.symm, hhas.node]
        rfl
      · change c.index ∈ a.staged.insert i ↔ true = true
        simp [hc]

/-- **Findings** are written in the same way, up to the first node that is not live. -/
theorem simulates_apply (f : Findings) (stage : Stage) :
    Routine.Simulates (HoldsWith s f.substantial) (apply f stage) (Tree.apply f stage) := by
  unfold apply Tree.apply
  refine .bind (.forM fun e _ => simulates_write e.1 stage e.2) fun _ => ?_
  refine .bind (.forM fun e _ => simulates_alter (fun _ => rfl) (fun _ => rfl) (fun _ => rfl)
    fun _ _ _ => rfl) fun _ => ?_
  refine .bind (.forM fun e _ => simulates_alter (fun _ => rfl) (fun _ => rfl) (fun _ => rfl)
    fun _ _ _ => rfl) fun _ => ?_
  rintro a t ⟨h, hslots⟩
  refine .ok ⟨h.mark h.was (congrArg (·.insertMany f.substantial) h.now) ?_, hslots⟩
  rintro i (hi | hi)
  · exact h.marked i (.inl hi)
  · rcases ExtTreeSet.mem_insertMany_list.mp hi with hi | hi
    · exact h.marked i (.inr hi)
    · exact hslots (List.contains_iff_mem.mp hi)

variable {a : Arena} {t : Tree}

theorem Holds.beginCycle (h : Holds s a t) : Holds s a.beginCycle t.beginCycle :=
  h.mark h.now rfl fun i hi =>
    hi.elim (fun hi => h.marked i (.inr hi)) (absurd · ExtTreeSet.not_mem_empty)

theorem Holds.renameLinks (h : Holds s a t) (var : String) (old new : Nat) :
    Holds s (a.renameLinks var old new) (t.renameLinks var old new) := by
  have hnode : ∀ i, (a.renameLinks var old new).node? i =
      (a.node? i).map (·.renameLinks var old new) := fun i => by
    unfold node? Arena.renameLinks
    rw [List.getElem?_map]
    cases a.nodes[i]? <;> rfl
  have hrecord : ∀ (c : Cell) p ks, (c.record p ks).renameLinks var old new =
      Cell.record { c with links := c.links.map (·.rename var old new) } p ks := fun c p ks => by
    unfold Record.renameLinks
    cases hlinks : c.links with
    | none => simp [Cell.record, hlinks]
    | some links =>
      cases hm : links.mentions var old with
      | true => simp [Cell.record, hlinks, hm]
      | false => simp [Cell.record, hlinks, hm, LinkSet.rename_of_not_mentions hm]
  refine h.map (fun _ => rfl) ⟨rfl, List.length_map _, rfl, rfl, rfl⟩ (fun p c ks hhas => ?_)
    fun i hi => ⟨?_, hi.staged, hi.quantified⟩
  · refine ⟨?_, hhas.staged, hhas.quantified⟩
    rw [← hrecord, hnode]
    exact congrArg _ hhas.node
  · rw [hnode, hi.node]
    rfl

theorem Has.commit {p : Option Nat} {c : Cell} {ks : List Nat} {nodes : List (Option Record)}
    (hhas : a.Has s p c ks) (hnode : node? { a with nodes, staged := ∅ } c.index =
      if c.index ∈ a.staged then (a.node? c.index).map Record.commit else a.node? c.index) :
    Has s { a with nodes, staged := ∅ } p c.commit ks := by
  unfold Cell.commit
  split_ifs with hpending
  · refine ⟨hnode.trans ?_, iff_of_false ExtTreeSet.not_mem_empty nofun, hhas.quantified⟩
    rw [if_pos (hhas.staged.mpr hpending), hhas.node]
    rfl
  · refine ⟨hnode.trans ?_, iff_of_false ExtTreeSet.not_mem_empty hpending, hhas.quantified⟩
    rw [if_neg (mt hhas.staged.mp hpending), hhas.node]

/-- **The truths that wait** are those of the nodes that the table has. -/
theorem simulates_commit :
    Routine.Simulates (Holds s) Arena.commit (modify Tree.commit : Routine Tree PUnit) := by
  intro a t h
  have hd : a.staged.toList.Nodup := a.staged.distinct_toList.imp fun hne e =>
    hne (Std.LawfulEqCmp.compare_eq_iff_eq.mpr e)
  have hmem : ∀ i, i ∈ a.staged.toList ↔ i ∈ a.staged := fun i => ExtTreeSet.mem_toList
  have hlive : ∀ i ∈ a.staged.toList, (node? { a with staged := ∅ } i).isSome := fun i hi => by
    by_cases hit : i ∈ t.indices
    · obtain ⟨r, hr⟩ := h.mem_indices_iff.mp hit
      exact Option.isSome_iff_exists.mpr ⟨r, hr⟩
    · exact absurd ((hmem i).mp hi) (h.vacant i hit).staged
  obtain ⟨nodes, hrun, hlength, hnodes⟩ := exists_alterAll (f := Record.commit) hd hlive
  have hcommit : Arena.commit a = .ok ⟨⟩ { a with nodes, staged := ∅ } := hrun
  rw [hcommit]
  refine .ok (h.map (fun c => ?_) ⟨rfl, hlength, rfl, rfl, rfl⟩ (fun p c ks hhas => hhas.commit ?_)
    fun i hi => ?_)
  · unfold Cell.commit
    split_ifs <;> rfl
  · refine (hnodes _).trans ?_
    simp only [hmem]
    rfl
  · refine ⟨?_, ExtTreeSet.not_mem_empty, hi.quantified⟩
    rw [hnodes, if_neg fun hstaged => hi.staged ((hmem i).mp hstaged)]
    exact hi.node

/-! ## One context in the place of another -/

theorem everywhere_rebound {m : Node} {p : Option Nat} {var : String} {c : Context}
    {nodes : List (Option Record)} (hp : m.Everywhere (a.Has s) p) (hd : m.indices.Nodup)
    (hnodes : ∀ j, node? { a with nodes } j =
      if j ∈ m.indices then (a.node? j).map (·.substitute var c) else a.node? j) :
    (m.rebound var c).Everywhere ((amend { a with nodes } m.index (·.bind c.id)).Has s) p := by
  have hmap : (m.map (Cell.substitute (some ⟨var, c⟩))).Everywhere (Has s { a with nodes }) p := by
    refine hp.onCells (fun _ => rfl) fun q cell ks hc hhas => ⟨?_, hhas.staged, hhas.quantified⟩
    have hmem : cell.index ∈ m.indices := List.mem_map_of_mem hc
    refine (hnodes cell.index).trans ?_
    rw [if_pos hmem, hhas.node]
    rfl
  have hindices : (m.map (Cell.substitute (some ⟨var, c⟩))).indices = m.indices := by
    rw [Node.indices, Node.cells_map, List.map_map]
    rfl
  have hindex : (m.map (Cell.substitute (some ⟨var, c⟩))).index = m.index := by
    rw [Node.index, Node.cell_map]
    rfl
  rw [← hindex]
  exact hmap.onCell (hindices ▸ hd) (fun _ => rfl) (hmap.root.amend rfl rfl rfl rfl)
    fun q cell ks hne hhas => hhas.same (same_amend _ _ hne)

theorem Holds.rebound {m : Node} {t' : Tree} {above : List Nat} {var : String} {c : Context}
    {nodes : List (Option Record)} (h : Holds s a t) (hm : t.atLineage? (m.index :: above) = some m)
    (hu : t.update? (m.index :: above) (Node.rebound var c) = some t')
    (hlength : nodes.length = a.nodes.length)
    (hnodes : ∀ j, node? { a with nodes } j =
      if j ∈ m.indices then (a.node? j).map (·.substitute var c) else a.node? j) :
    Holds s (amend { a with nodes } m.index (·.bind c.id)) t' := by
  have hcore : ∀ c : Cell, c.core.index = c.index := fun _ => rfl
  have hindices : (m.rebound var c).indices = m.indices :=
    Node.indices_eq_of_map hcore (Node.map_core_rebound var c m)
  have hw : a.Rewritten { a with nodes } := ⟨rfl, hlength, rfl, rfl, rfl⟩
  refine h.update hm hu (Node.index_rebound var c m) (hindices ▸ .refl _) (hw.trans (rewritten_amend _ _ _))
    (fun j hj => ?_) fun p hp => everywhere_rebound hp (Tree.nodup_of_atLineage? h.nodup hm) hnodes
  have hkept : a.Same { a with nodes } j := ⟨(hnodes j).trans (if_neg hj), .rfl, fun _ => .rfl⟩
  exact hkept.trans (same_amend _ _ fun e => hj (e ▸ m.index_mem_indices))

theorem Holds.rebindBranch {p : Node} {above : List Nat} (h : Holds s a t) (old new : Nat)
    (hp : t.atLineage? above = some p) :
    ∃ r, a.node? p.index = some r ∧
      Holds s (a.amend p.index (·.rebindBranch old new))
        (t.update above (Node.onCell (·.rebindBranch old new))) := by
  obtain ⟨t', hu⟩ := Tree.exists_tree_update? (f := Node.onCell (·.rebindBranch old new)) hp
  obtain ⟨q, hq⟩ := h.everywhere_of_atLineage? hp
  have hupdate : t.update above (Node.onCell (·.rebindBranch old new)) = t' := by
    rw [Tree.update, hu]
    rfl
  have hcell : ∀ c : Cell, (c.rebindBranch old new).index = c.index ∧
      (c.rebindBranch old new).formula = c.formula ∧ (c.rebindBranch old new).pending = c.pending ∧
      ∀ q ks, (c.record q ks).rebindBranch old new = (c.rebindBranch old new).record q ks := fun c => by
    unfold Cell.rebindBranch Record.rebindBranch
    cases hold : c.branchTruths[old]? <;> simp [Cell.record, hold]
  refine ⟨_, hq.root.node, ?_⟩
  rw [hupdate]
  exact h.change hp hu (fun c => (hcell c).1) (rewritten_amend _ _ _) (fun j hj => same_amend _ _ hj)
    fun q ks hhas => hhas.amend (hcell _).1 (hcell _).2.1 (hcell _).2.2.1 ((hcell _).2.2.2 q ks)

/-- A branch is rebound with the slots below it, and then the node above it is told. -/
theorem Holds.rebind_eq {m : Node} {p : Option Nat} {lineage : List Nat} (h : Holds s a t)
    (hm : t.atLineage? lineage = some m) (hp : m.Everywhere (a.Has s) p) (var : String) (c : Context) :
    ∃ nodes : List (Option Record), nodes.length = a.nodes.length ∧
      (∀ j, node? { a with nodes } j =
        if j ∈ m.indices then (a.node? j).map (·.substitute var c) else a.node? j) ∧
      rebind m.index var c a =
        rebindAbove p m.cell.bound c.id (amend { a with nodes } m.index (·.bind c.id)) := by
  have hd := Tree.nodup_of_atLineage? h.nodup hm
  have hlive : ∀ j ∈ m.indices, (a.node? j).isSome := fun j hj => by
    obtain ⟨k, hk, rfl⟩ := Node.exists_of_mem_indices hj
    obtain ⟨q, hq⟩ := hp.of_mem_subtrees hk
    exact Option.isSome_iff_exists.mpr ⟨_, hq.root.node⟩
  obtain ⟨nodes, hrun, hlength, hnodes⟩ := exists_alterAll (f := (·.substitute var c)) hd hlive
  have hr : node? { a with nodes } m.index =
      some ((m.cell.record p (m.kids.map Node.index)).substitute var c) := by
    rw [hnodes, if_pos m.index_mem_indices, show a.node? m.index = _ from hp.root.node]
    rfl
  refine ⟨nodes, hlength, hnodes, ?_⟩
  unfold rebind
  rw [Routine.get_bind, Routine.bind_ok (Routine.ofExcept_ok (h.subtree_eq hm) a), Routine.bind_ok hrun,
    Routine.get_bind, Routine.bind_ok (Routine.ofExcept_ok (node_ok hr) _), Routine.bind_ok (alter_ok hr)]
  rfl

theorem Holds.alike_rebind {m : Node} {above : List Nat} (h : Holds s a t)
    (hlineage : Tree.lineage m.index t = .ok (m.index :: above) t)
    (hm : t.atLineage? (m.index :: above) = some m) (var : String) (c : Context) :
    Routine.Alike (Holds s) (rebind m.index var c a) (Tree.rebind m.index var c t) := by
  obtain ⟨t', hu⟩ := Tree.exists_tree_update? (f := Node.rebound var c) hm
  rw [Tree.rebind_ok hlineage hm hu]
  rcases h.exists_parent hm with ⟨rfl, -, hp⟩ | ⟨-, q, hq, -, hp⟩
  · obtain ⟨nodes, hlength, hnodes, hrun⟩ := h.rebind_eq hm hp var c
    have hrebound := h.rebound hm hu hlength hnodes
    rw [hrun]
    cases m.cell.bound with
    | none => exact .ok hrebound
    | some old =>
      rw [Option.elim_some, Tree.update_nil]
      exact .ok hrebound
  · obtain ⟨nodes, hlength, hnodes, hrun⟩ := h.rebind_eq hm hp var c
    have hrebound := h.rebound hm hu hlength hnodes
    rw [hrun]
    cases m.cell.bound with
    | none => exact .ok hrebound
    | some old =>
      obtain ⟨q', hq', hindex⟩ := Tree.exists_atLineage?_of_update? (Node.index_rebound var c) hu hq
      obtain ⟨r, hr', hheld⟩ := hrebound.rebindBranch old c.id hq'
      rw [hindex] at hr' hheld
      rw [rebindAbove, alter_ok hr']
      exact .ok hheld

/-- **Rebinding** a branch. -/
theorem simulates_rebind (i : Nat) (var : String) (c : Context) :
    Routine.Simulates (Holds s) (rebind i var c) (Tree.rebind i var c) := by
  intro a t h
  by_cases hi : i ∈ t.indices
  · obtain ⟨above, m, hlineage, hm, rfl⟩ := Tree.exists_lineage h.nodup hi
    exact h.alike_rebind hlineage hm var c
  · have hsub : a.subtree i = .error (Tree.notLive i) := by
      rw [subtree, walk, node_error (h.vacant i hi).node]
      rfl
    unfold rebind Tree.rebind
    rw [Routine.get_bind, Routine.bind_error (Routine.ofExcept_error hsub a),
      Routine.bind_error (Tree.lineage_error hi)]
    exact .error h

end Arena

end RuleMonitor
