import Mathlib.Data.List.Dedup
import RuleMonitor.Proofs.Arenas.Holding
import RuleMonitor.Proofs.Instances.Invariants

/-!
# Consistency

An arena that carries the nodes of an instantiation is linked to one tree, and its tables fit the nodes.
What its check can find wrong are nodes: truths that are not committed, and quantifiers that do not have
the truths of their branches. An instantiation of which each slot is that of one node or free is carried
by the slots that are read off it, and so is consistent if its nodes are.

* `Node.Consistent`: what is asked of a node.
* **`Arena.Carries.check_eq_ok_iff`**: an arena is consistent if and only if its nodes are.
* `Arena.Carries.check_eq`, `Tree.check_eq_of_carries`: all arenas that carry an instantiation agree.
* **`Tree.Owns.carries`**: the slots of an instantiation carry its nodes.
* **`Tree.check_ok`**: an instance over pools, with all truths found and committed, is consistent.
-/

namespace RuleMonitor

open Std (ExtTreeMap ExtTreeSet)

theorem Lists.forM_eq_ok {α : Type} {f : α → Except Failure PUnit} {l : List α} :
    l.forM f = .ok ⟨⟩ ↔ ∀ a ∈ l, f a = .ok ⟨⟩ := by
  induction l with
  | nil => exact ⟨fun _ => nofun, fun _ => rfl⟩
  | cons a l ih =>
    rw [List.forall_mem_cons, ← ih]
    change (f a >>= fun _ => l.forM f) = _ ↔ _
    cases ha : f a with
    | ok u => exact ⟨fun h => ⟨rfl, h⟩, And.right⟩
    | error e => exact ⟨nofun, fun h => nomatch h.1⟩

namespace Node

variable {s : Sentence} {kids : List Node}

/-- The truth of a node is committed. A quantifier has the truths of its branches, which are bound to
different contexts. -/
structure Consistent (s : Sentence) (n : Node) : Prop where
  committed : n.cell.staged = n.cell.truth
  bound : (s.quantifierAt? n.cell.formula).isSome = true → ∀ kid ∈ n.kids, kid.cell.bound.isSome = true
  apart : (s.quantifierAt? n.cell.formula).isSome = true →
    (n.kids.map fun kid => kid.cell.bound.getD 0).Nodup
  noted : (s.quantifierAt? n.cell.formula).isSome = true → n.cell.branchTruths = stagedTruths n.kids

theorem stagedTruths_eq_foldl (kids : List Node) :
    stagedTruths kids =
      kids.foldl (fun m kid => m.insert (kid.cell.bound.getD 0) kid.cell.staged) ∅ := by
  rw [stagedTruths, ExtTreeMap.ofList_eq_insertMany_empty, ExtTreeMap.insertMany_list_eq_foldl,
    List.foldl_map]

/-- There are as many truths as branches if and only if these are bound to different contexts. -/
theorem size_stagedTruths : (stagedTruths kids).size = kids.length ↔
    (kids.map fun kid => kid.cell.bound.getD 0).Nodup := by
  constructor
  · intro h
    have hbounds : (stagedTruths kids).keys.Perm (kids.map fun kid => kid.cell.bound.getD 0).dedup := by
      refine (List.perm_ext_iff_of_nodup ?_ (List.nodup_dedup _)).mpr fun id => ?_
      · exact ExtTreeMap.distinct_keys.imp fun hne e => hne (Std.LawfulEqCmp.compare_eq_iff_eq.mpr e)
      · rw [ExtTreeMap.mem_keys, stagedTruths, ExtTreeMap.mem_ofList, List.mem_dedup, List.map_map]
        simp
    have hlength := hbounds.length_eq
    rw [ExtTreeMap.length_keys, h, ← List.length_map fun kid => kid.cell.bound.getD 0] at hlength
    rw [← (List.dedup_sublist _).eq_of_length hlength.symm]
    exact List.nodup_dedup _
  · intro h
    rw [stagedTruths, ExtTreeMap.size_ofList, List.length_map]
    rw [List.pairwise_map]
    refine (List.pairwise_map.mp h).imp fun hne e => hne ?_
    exact Std.LawfulEqCmp.compare_eq_iff_eq.mp e

end Node

namespace Arena

variable {s : Sentence} {a : Arena} {t : Tree} {n m : Node} {i : Nat} {p : Option Nat}

/-! ## Links between slots -/

theorem Carries.countReachable_eq (h : Carries s a t) : a.countReachable = .ok t.indices.length := by
  unfold countReachable
  rw [h.root]
  cases ht : t.root with
  | none =>
    rw [Tree.indices_of_empty ht]
    rfl
  | some n =>
    have hnode : a.node? n.index = some _ := (h.nodes n ht).root.node
    have hsub := h.subtree_eq (Tree.atLineage?_root ht)
    simp only [Option.map_some, hnode, Option.all_some, Cell.record, Option.isSome_none, hsub,
      Bool.false_eq_true, if_false]
    rw [Tree.indices_of_root ht]
    rfl

theorem Carries.checkReach_ok (h : Carries s a t) : a.checkReach = .ok () := by
  have hsize : a.size = t.indices.length := by
    have heq := h.full.size_eq
    unfold Tree.size at heq
    rw [size, h.length, h.free, heq]
  unfold checkReach
  rw [h.countReachable_eq, hsize]
  simp [bind, Except.bind]
  rfl

theorem Carries.checkEntries_ok (h : Carries s a t) :
    (a.quantifiers.toList.forM fun (pattern, indices) => indices.toList.forM (a.checkEntry s pattern)) =
      .ok () := by
  refine Lists.forM_eq_ok.mpr fun ⟨pattern, indices⟩ he => Lists.forM_eq_ok.mpr fun i hi => ?_
  have hmem : i ∈ a.quantifiersOver pattern := by
    rw [quantifiersOver, ExtTreeMap.mem_toList_iff_getElem?_eq_some.mp he]
    exact ExtTreeSet.mem_toList.mp hi
  obtain ⟨r, hr, hp⟩ := h.mem_quantifiersOver_iff.mp hmem
  unfold checkEntry
  rw [hr, Option.bind_some, if_pos hp]

/-! ## One node -/

/-- **The truths of branches** are found if these are bound. -/
theorem boundTruths_eq_ok_iff {kids : List Node} {truths : ExtTreeMap Nat Truth}
    (hk : ∀ kid ∈ kids, kid.Everywhere (a.Has s) p) :
    a.boundTruths i (kids.map Node.index) = .ok truths ↔
      (∀ kid ∈ kids, kid.cell.bound.isSome = true) ∧ Node.stagedTruths kids = truths := by
  rw [Node.stagedTruths_eq_foldl]
  unfold boundTruths
  generalize (∅ : ExtTreeMap Nat Truth) = start
  induction kids generalizing start with
  | nil => simp [pure, Except.pure]
  | cons kid kids ih =>
    rw [List.forall_mem_cons] at hk
    have hnode : a.node? kid.index = some _ := hk.1.root.node
    rw [List.map_cons, List.foldlM_cons, access, hnode, List.forall_mem_cons, List.foldl_cons, and_assoc,
      ← ih hk.2]
    cases hb : kid.cell.bound with
    | none => simp [Cell.record, hb, bind, Except.bind, throw, throwThe, MonadExceptOf.throw]
    | some id => simp [Cell.record, hb, bind, Except.bind, pure, Except.pure]

theorem checkQuantifier_eq_ok_iff {q : Quantifier} (hm : m.Everywhere (a.Has s) p)
    (hq : s.quantifierAt? m.cell.formula = some q) :
    a.checkQuantifier q m.index (m.cell.record p (m.kids.map Node.index)) = .ok () ↔
      (∀ kid ∈ m.kids, kid.cell.bound.isSome = true) ∧
      (m.kids.map fun kid => kid.cell.bound.getD 0).Nodup ∧
      m.cell.branchTruths = Node.stagedTruths m.kids := by
  have hregistered : (a.quantifiersOver q.pattern).contains m.index = true :=
    (hm.root.quantified q.pattern).mpr (by rw [Sentence.patternAt?, hq]; rfl)
  have hkids : ∀ kid ∈ m.kids, kid.Everywhere (a.Has s) (some m.index) := by
    obtain ⟨c, kids⟩ := m
    exact (Node.everywhere_mk.mp hm).2
  unfold checkQuantifier
  simp only [hregistered, Cell.record, List.length_map]
  cases htruths : a.boundTruths m.index (m.kids.map Node.index) with
  | error e =>
    refine iff_of_false (fun h => ?_) fun h => ?_
    · cases h
    · rw [(boundTruths_eq_ok_iff hkids).mpr ⟨h.1, rfl⟩] at htruths
      cases htruths
  | ok truths =>
    obtain ⟨hbound, rfl⟩ := (boundTruths_eq_ok_iff hkids).mp htruths
    by_cases hsize : (Node.stagedTruths m.kids).size = m.kids.length
    · by_cases heq : Node.stagedTruths m.kids = m.cell.branchTruths
      · refine iff_of_true ?_ ⟨hbound, Node.size_stagedTruths.mp hsize, heq.symm⟩
        simp [bind, Except.bind, pure, Except.pure, hsize, ← heq]
      · refine iff_of_false ?_ fun h => heq h.2.2.symm
        simp [bind, Except.bind, throw, throwThe, MonadExceptOf.throw, hsize, heq]
    · refine iff_of_false ?_ fun h => hsize (Node.size_stagedTruths.mpr h.2.1)
      simp [bind, Except.bind, throw, throwThe, MonadExceptOf.throw, hsize]

/-- **One node** passes if it is consistent. -/
theorem checkNode_eq_ok_iff (hm : m.Everywhere (a.Has s) p) :
    a.checkNode s m.index (m.cell.record p (m.kids.map Node.index)) = .ok () ↔ m.Consistent s := by
  have hbranches : ((m.kids.map Node.index).forM (a.checkBranch m.index)) = .ok () := by
    refine Lists.forM_eq_ok.mpr (List.forall_mem_map.mpr fun kid hk => ?_)
    obtain ⟨c, kids⟩ := m
    have hnode : a.node? kid.index = some _ := ((Node.everywhere_mk.mp hm).2 kid hk).root.node
    unfold checkBranch
    rw [hnode]
    exact if_pos rfl
  unfold checkNode
  simp only [Cell.record, hbranches]
  by_cases hcommitted : m.cell.staged = m.cell.truth
  · cases hq : s.quantifierAt? m.cell.formula with
    | none =>
      simp only [hcommitted, bind, Except.bind, pure, Except.pure]
      refine iff_of_true (by simp) ⟨hcommitted, ?_, ?_, ?_⟩ <;> rw [hq] <;>
        exact fun h => absurd h Bool.false_ne_true
    | some q =>
      have hiff := checkQuantifier_eq_ok_iff hm hq
      simp only [hcommitted, bind, Except.bind, ne_eq, not_true, if_false]
      refine hiff.trans ⟨fun h => ⟨hcommitted, fun _ => h.1, fun _ => h.2.1, fun _ => h.2.2⟩, fun h => ?_⟩
      have hover : (s.quantifierAt? m.cell.formula).isSome = true := by rw [hq]; rfl
      exact ⟨h.bound hover, h.apart hover, h.noted hover⟩
  · refine iff_of_false ?_ fun h => hcommitted h.committed
    simp [hcommitted, bind, Except.bind, throw, throwThe, MonadExceptOf.throw]

/-! ## All nodes -/

theorem mem_slots_iff {r : Record} :
    (i, some r) ∈ (List.range a.nodes.length).zip a.nodes ↔ a.node? i = some r := by
  rw [node?, Option.join_eq_some_iff, List.mem_iff_getElem?]
  simp only [List.getElem?_zip_eq_some]
  constructor
  · rintro ⟨j, hj, hslot⟩
    obtain ⟨hlt, rfl⟩ := List.getElem?_eq_some_iff.mp hj
    rwa [List.getElem_range]
  · intro hslot
    obtain ⟨hlt, -⟩ := List.getElem?_eq_some_iff.mp hslot
    exact ⟨i, List.getElem?_range hlt, hslot⟩

/-- **The check of an arena** asks something of its nodes only: the links between the slots and the
tables are right. -/
theorem Carries.check_eq_ok_iff (h : Carries s a t) :
    a.check s = .ok () ↔ ∀ n, t.root = some n → ∀ m ∈ n.subtrees, m.Consistent s := by
  have hslots : ((List.range a.nodes.length).zip a.nodes).forM (a.checkSlot s) = .ok () ↔
      ∀ n, t.root = some n → ∀ m ∈ n.subtrees, m.Consistent s := by
    rw [Lists.forM_eq_ok]
    constructor
    · intro hall n ht m hm
      obtain ⟨p, hp⟩ := (h.nodes n ht).of_mem_subtrees hm
      exact (checkNode_eq_ok_iff hp).mp (hall (m.index, some _) (mem_slots_iff.mpr hp.root.node))
    · rintro hall ⟨i, slot⟩ hi
      cases slot with
      | none => rfl
      | some r =>
        obtain ⟨n, q, m, ht, hm, rfl, rfl⟩ := h.exists_entry (mem_slots_iff.mp hi)
        exact (checkNode_eq_ok_iff ((h.nodes n ht).of_mem_descent hm)).mpr
          (hall n ht m (Node.mem_subtrees_of_mem_descent hm))
  unfold check
  simp only [h.checkReach_ok, h.checkEntries_ok, bind, Except.bind]
  rw [← hslots]
  cases ((List.range a.nodes.length).zip a.nodes).forM (a.checkSlot s) with
  | ok u => rfl
  | error e => rfl

theorem Carries.node?_eq (h : Carries s a t) (h' : Carries s a' t) : a.node? i = a'.node? i := by
  by_cases hi : i ∈ t.indices
  · obtain ⟨n, ht, hin⟩ := Tree.exists_root_of_mem hi
    obtain ⟨q, m, hm, rfl⟩ := Node.exists_mem_descent hin none
    exact (h.nodes n ht _ hm).node.trans (h'.nodes n ht _ hm).node.symm
  · exact (h.vacant i hi).node.trans (h'.vacant i hi).node.symm

/-- **What the check finds** depends on the nodes alone. -/
theorem Carries.check_eq (h : Carries s a t) (h' : Carries s a' t) : a.check s = a'.check s := by
  have hnode : a.node? = a'.node? := funext fun i => h.node?_eq h'
  have hregistered : ∀ pattern i, (a.quantifiersOver pattern).contains i =
      (a'.quantifiersOver pattern).contains i := fun pattern i => Bool.eq_iff_iff.mpr <| by
    rw [ExtTreeSet.contains_iff_mem, ExtTreeSet.contains_iff_mem, h.mem_quantifiersOver_iff,
      h'.mem_quantifiersOver_iff, hnode]
  have hnodes : a.nodes = a'.nodes := by
    refine List.ext_getElem (h.length.trans h'.length.symm) fun i hi hi' => ?_
    have heq := congrFun hnode i
    rwa [node?, node?, List.getElem?_eq_getElem hi, List.getElem?_eq_getElem hi', Option.join_some,
      Option.join_some] at heq
  have hbranch : a.checkBranch = a'.checkBranch := funext₂ fun i kid => by
    rw [checkBranch, checkBranch, hnode]
  have htruths : a.boundTruths = a'.boundTruths := funext₂ fun i kids => by
    simp only [boundTruths, access, hnode]
  have hslot : a.checkSlot s = a'.checkSlot s := by
    refine funext fun ⟨i, slot⟩ => ?_
    cases slot with
    | none => rfl
    | some r => simp only [checkSlot, checkNode, checkQuantifier, hbranch, htruths, hregistered]
  unfold check
  simp only [h.checkReach_ok, h'.checkReach_ok, h.checkEntries_ok, h'.checkEntries_ok, hslot, hnodes]

end Arena

namespace Tree

open Arena

variable {r : Registry} {P : Pools} {s : Sentence} {t : Tree} {n : Node} {a : Arena}

/-! ## The slots of an instantiation -/

theorem map_fst_records (t : Tree) : t.records.map Prod.fst = t.indices := by
  cases ht : t.root with
  | none =>
    rw [records, ht, indices_of_empty ht]
    rfl
  | some n =>
    rw [records, ht, indices_of_root ht, List.map_map, Node.indices, ← Node.map_cell_subtrees,
      ← Node.map_snd_descent n none, List.map_map, List.map_map]
    rfl

theorem mem_waiting_iff (hd : t.indices.Nodup) {c : Cell} (hc : c ∈ t.cells) :
    c.index ∈ ExtTreeSet.ofList ((t.cells.filter (·.pending)).map (·.index)) ↔ c.pending = true := by
  rw [ExtTreeSet.mem_ofList, List.contains_iff_mem, List.mem_map]
  constructor
  · rintro ⟨c', hc', he⟩
    obtain ⟨hc', hpending⟩ := List.mem_filter.mp hc'
    rwa [← List.inj_on_of_nodup_map hd hc' hc he]
  · exact fun h => ⟨c, List.mem_filter.mpr ⟨hc, h⟩, rfl⟩

theorem node?_frame (t : Tree) (i : Nat) : t.frame.node? i = none := by
  rw [node?, frame, List.getElem?_replicate]
  split_ifs <;> rfl

theorem notMem_quantifiersOver_frame (t : Tree) (pattern : String) (i : Nat) :
    i ∉ t.frame.quantifiersOver pattern :=
  ExtTreeSet.not_mem_empty

theorem occupyAll_eq (s : Sentence) (l : List (Nat × Record)) : ∀ a : Arena,
    occupyAll s l a = .ok ⟨⟩ (l.foldl (fun a (index, r) => a.occupy s index r) a) := by
  induction l with
  | nil => exact fun _ => rfl
  | cons e l ih => exact fun a => ih (a.occupy s e.1 e.2)

/-- **The slots of an instantiation** carry its nodes, if each slot is that of one node or free. -/
theorem Owns.carries (h : t.Owns t.indices) (s : Sentence) : Carries s (t.arena s) t := by
  have hslots : ∀ e ∈ t.records, e.1 < t.frame.nodes.length := fun e he => by
    rw [frame, List.length_replicate]
    exact h.lt_slots (map_fst_records t ▸ List.mem_map_of_mem he)
  obtain ⟨nodes, quantifiers, hrun, hlength, hsame, hfilled⟩ :=
    exists_occupyAll s ((map_fst_records t).symm ▸ h.nodup) hslots
  have harena : t.arena s = { t.frame with nodes, quantifiers } := by
    rw [occupyAll_eq] at hrun
    exact (EStateM.Result.ok.inj hrun).2
  have hvacant : ∀ i, i ∉ t.indices → t.frame.Vacant i := fun i hi => by
    refine ⟨node?_frame t i, fun hwaits => hi ?_, fun p => notMem_quantifiersOver_frame t p i⟩
    change i ∈ ExtTreeSet.ofList ((t.cells.filter (·.pending)).map (·.index)) at hwaits
    rw [ExtTreeSet.mem_ofList, List.contains_iff_mem] at hwaits
    exact (List.filter_sublist.map _).subset hwaits
  rw [harena]
  refine ⟨rfl, hlength.trans List.length_replicate, rfl, fun n ht e he => ?_, fun i hi => ?_, h⟩
  · have hcell : e.2.cell ∈ t.cells := by
      rw [cells, ht]
      exact Node.cell_mem_cells_of_mem (Node.mem_subtrees_of_mem_descent he)
    have hrecord : (e.2.index, e.2.cell.record e.1 (e.2.kids.map Node.index)) ∈ t.records := by
      rw [records, ht]
      exact List.mem_map_of_mem (f := fun e => (e.2.index, e.2.cell.record e.1 (e.2.kids.map Node.index))) he
    obtain ⟨hnode, hquantified⟩ := hfilled _ hrecord
    refine ⟨hnode, mem_waiting_iff h.nodup hcell, fun p => (hquantified p).trans ?_⟩
    exact or_iff_left (notMem_quantifiersOver_frame t p _)
  · exact (hvacant i hi).same (hsame i ((map_fst_records t).symm ▸ hi))

/-! ## Consistent instantiations -/

/-- **The check of an instantiation** is that of any arena that carries it. -/
theorem check_eq_of_carries (h : Carries s a t) : t.check s = a.check s :=
  (h.full.carries s).check_eq h

/-- An instance over pools has nothing wrong at a node whose truth was found and committed. -/
theorem consistent_of_found {f : Formula} (hP : P.Keyed) (hr : f.ReadFrom s.nodes)
    (hp : f.Placed P n.cell n.kids) (hf : f.Found r P n.cell n.kids) (hn : n.cell.pending = false) :
    n.Consistent s := by
  have hq : s.quantifierAt? n.cell.formula = f.quantifier? := by
    rw [hp.1, ← hr.quantifier?_eq]
    rfl
  refine ⟨(hf.2.1 hn).symm, ?_, ?_, ?_⟩
  all_goals
    rw [hq]
    intro hover
    obtain ⟨i, q, body, rfl⟩ : ∃ i q body, f = .quantified i q body := by
      cases f with
      | quantified i q body => exact ⟨i, q, body, rfl⟩
      | binary | negation | application => cases hover
  · intro kid hk
    obtain ⟨x, -, hx, -⟩ := Formula.exists_of_places hp.2 hk
    rw [hx, Option.isSome_some]
  · exact Formula.nodup_bounds hP hp.2
  · exact hf.2.2

/-- **An instance passes the check** if each slot is that of one node or free, all truths were found and
none waits. -/
theorem check_ok (hP : P.Keyed) (hs : s.WellFormed) (ht : t.root = some n) (ho : t.Owns n.indices)
    (hp : s.formula.Every (Formula.Placed P) n) (hf : s.formula.Every (Formula.Found r P) n)
    (hn : n.Calm) : t.check s = .ok () := by
  rw [← indices_of_root ht] at ho
  refine (ho.carries s).check_eq_ok_iff.mpr fun n' ht' m hm => ?_
  cases ht.symm.trans ht'
  obtain ⟨f, hf, hpm, hfm⟩ := (hp.and hf).exists_of_mem m hm
  exact consistent_of_found hP (hs.read.of_mem hf) hpm hfm (hn m.cell (Node.cell_mem_cells_of_mem hm))

end Tree

end RuleMonitor
