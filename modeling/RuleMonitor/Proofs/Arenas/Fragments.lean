import RuleMonitor.Proofs.Arenas.Grafting

/-!
# Fragments as parts

Evaluation builds a fragment from the root down: the fragments of the branches are absorbed by the node
above them, one after the other. The positions are those in pre-order then, and a graft puts the nodes
into the slots that the fragment itself takes.

* `Fragment.assembled_parts`: a fragment is put together from single nodes.
* `Fragment.place_map_append`: a fragment in other slots.
* **`Fragment.shape_parts`**: the positions are those in pre-order.
* **`Arena.simulates_graft`**: grafts to arenas and to instantiations.
-/

namespace RuleMonitor

namespace Fragment

theorem length_partsAll {kids : List Fragment} (h : ∀ kid ∈ kids, kid.parts.nodes.length = kid.size) :
    ∀ p : Parts, (partsAll kids p).nodes.length = p.nodes.length + sizeAll kids := by
  induction kids with
  | nil => exact fun _ => rfl
  | cons kid kids ih =>
    rw [List.forall_mem_cons] at h
    intro p
    rw [partsAll, ih h.2, Parts.length_join, h.1, sizeAll, Nat.add_assoc]

theorem length_parts (fr : Fragment) : fr.parts.nodes.length = fr.size := by
  induction fr using induct with
  | mk formula env bound kids ih =>
    rw [parts, length_partsAll ih, size, Nat.add_comm]
    rfl

theorem formulas_join (p : Parts) (k : Nat) (q : Parts) :
    (p.join k q).nodes.map (·.formula) = p.nodes.map (·.formula) ++ q.nodes.map (·.formula) := by
  have hsettled : (q.settled (· + p.nodes.length) (some k)).map (·.formula) = q.nodes.map (·.formula) := by
    refine List.ext_getElem? fun i => ?_
    rw [List.getElem?_map, Parts.getElem?_settled, Option.map_map, List.getElem?_map]
    rfl
  have hextend : ∀ l : List Record, (l.modify k (·.extend p.nodes.length)).map (·.formula) =
      l.map (·.formula) := fun l => by
    refine List.ext_getElem? fun i => ?_
    rw [List.getElem?_map, List.getElem?_map, List.getElem?_modify]
    cases l[i]? with
    | none => rfl
    | some r => by_cases hk : k = i <;> simp [hk, Record.extend]
  unfold Parts.join
  rw [hextend, List.map_append, hsettled]

theorem formulas_parts (fr : Fragment) : fr.parts.nodes.map (·.formula) = fr.formulas := by
  induction fr using induct with
  | mk formula env bound kids ih =>
    have hall : ∀ p : Parts, (partsAll kids p).nodes.map (·.formula) =
        p.nodes.map (·.formula) ++ formulasAll kids := by
      induction kids with
      | nil =>
        intro p
        rw [partsAll, formulasAll, List.append_nil]
      | cons kid kids ihs =>
        intro p
        rw [partsAll, ihs fun k hk => ih k (List.mem_cons_of_mem _ hk), formulas_join,
          ih kid List.mem_cons_self, formulasAll, List.append_assoc]
    rw [parts, hall, formulas]
    rfl

theorem assembled_parts (fr : Fragment) : fr.parts.Assembled := by
  induction fr using induct with
  | mk formula env bound kids ih =>
    have hall : ∀ {p : Parts}, p.Assembled → 0 < p.nodes.length → (partsAll kids p).Assembled := by
      induction kids with
      | nil => exact fun hp _ => hp
      | cons kid kids ihs =>
        intro p hp hlength
        rw [partsAll]
        refine ihs (fun k hk => ih k (List.mem_cons_of_mem _ hk)) ?_ ?_
        · exact .absorb hp (ih kid List.mem_cons_self) hlength (Parts.absorb_eq_ok hlength _)
        · rw [Parts.length_join]
          omega
    rw [parts]
    exact hall (.single formula env bound) (Nat.zero_lt_one)

/-- **A fragment in other slots**, of which some are left. -/
theorem place_map_append (g : Nat → Nat) (fr : Fragment) : ∀ slots rest : List Nat,
    fr.size ≤ slots.length →
    (fr.place (slots.map g ++ rest)).1 = (fr.place slots).1.map (Cell.moved g) := by
  induction fr using induct with
  | mk formula env bound kids ih =>
    have hall : ∀ slots rest : List Nat, sizeAll kids ≤ slots.length →
        (placeAll (slots.map g ++ rest) kids).1 = (placeAll slots kids).1.map (Node.map (Cell.moved g)) := by
      induction kids with
      | nil => exact fun _ _ _ => rfl
      | cons fr frs ihs =>
        intro slots rest h
        rw [sizeAll] at h
        have hleft := (fr.place_eq (slots.map g ++ rest) (by simp; omega)).2
        have hdrop : (slots.map g ++ rest).drop fr.size = (slots.drop fr.size).map g ++ rest := by
          rw [List.drop_append_of_le_length (by simp; omega), List.map_drop]
        rw [placeAll_cons, placeAll_cons, List.map_cons, hleft, (fr.place_eq slots (by omega)).2, hdrop,
          ih fr List.mem_cons_self slots rest (by omega),
          ihs (fun k hk => ih k (List.mem_cons_of_mem _ hk)) _ _ (by rw [List.length_drop]; omega)]
    intro slots rest h
    rw [size] at h
    cases slots with
    | nil => simp at h
    | cons slot slots =>
      rw [List.map_cons, List.cons_append, place_mk, place_mk, Node.map_mk]
      simp only [List.drop_succ_cons, List.drop_zero, List.headD_cons]
      rw [hall slots rest (by simpa using h)]
      rfl

/-- **The positions of parts** that a fragment is put together from are those in pre-order. -/
theorem shape_parts (fr : Fragment) : fr.parts.Shape (fr.place (List.range fr.size)).1 := by
  induction fr using induct with
  | mk formula env bound kids ih =>
    have hall : ∀ {p : Parts} {c : Cell} {done : List Node}, p.Shape (.mk c done) →
        (partsAll kids p).Shape
          (.mk c (done ++ (placeAll (List.range' p.nodes.length (sizeAll kids)) kids).1)) := by
      induction kids with
      | nil =>
        intro p c done hp
        rwa [partsAll, placeAll, List.append_nil]
      | cons fr frs ihs =>
        intro p c done hp
        have hjoin : (p.join 0 fr.parts).Shape (.mk c (done ++
            [(fr.place (List.range fr.size)).1.map (Cell.moved (· + p.nodes.length))])) := by
          have hindex : (Node.mk c done).index = 0 := hp.index
          have hway : (Node.mk c done).follow? [] = some (.mk c done) := rfl
          rw [← hindex]
          exact hp.join (ih fr List.mem_cons_self) hway rfl
        have hrest := ihs (fun k hk => ih k (List.mem_cons_of_mem _ hk)) hjoin
        rw [Parts.length_join, length_parts, List.append_assoc, List.singleton_append] at hrest
        have hsplit : List.range' p.nodes.length (fr.size + sizeAll frs) =
            (List.range fr.size).map (· + p.nodes.length) ++
              List.range' (p.nodes.length + fr.size) (sizeAll frs) := by
          rw [← List.range'_append_1, List.range'_eq_map_range,
            List.map_congr_left fun i _ => Nat.add_comm p.nodes.length i]
        have hleft : (fr.place (List.range' p.nodes.length (fr.size + sizeAll frs))).2 =
            List.range' (p.nodes.length + fr.size) (sizeAll frs) := by
          rw [(fr.place_eq _ (by simp)).2, hsplit, List.drop_append_of_le_length (by simp),
            List.drop_of_length_le (by simp), List.nil_append]
        rw [partsAll, sizeAll, placeAll_cons, hleft, hsplit, place_map_append _ _ _ _ (by simp)]
        exact hrest
    have hplaced := hall (Parts.shape_single formula env bound)
    rw [List.nil_append] at hplaced
    rw [parts, size, place_mk]
    have hdrop : (List.range (sizeAll kids + 1)).drop 1 = List.range' 1 (sizeAll kids) := by
      rw [List.range_eq_range', List.range'_succ, List.drop_succ_cons, List.drop_zero]
    have hhead : (List.range (sizeAll kids + 1)).headD 0 = 0 := by
      rw [List.range_eq_range', List.range'_succ]
      rfl
    rw [hdrop, hhead]
    exact hplaced

end Fragment

namespace Tree

variable {t t' : Tree} {s : Sentence} {lineage : List Nat} {m : Node} {fr : Fragment}

theorem graftAt_ok (hm : t.atLineage? lineage = some m)
    (hf : (fr.formulas.find? fun f => s.nodes.length ≤ f) = none)
    (hu : (t.taken fr.size).update? lineage
      (·.graft (fr.place (t.nextSlots fr.size)).1) = some t') :
    graftAt s (some lineage) fr t = .ok (fr.place (t.nextSlots fr.size)).1.index t' := by
  have hu' : (t.taken fr.size).update lineage (·.graft (fr.place (t.nextSlots fr.size)).1) = t' := by
    unfold update
    rw [hu]
    rfl
  unfold taken at hu'
  unfold graftAt
  rw [Routine.get_bind]
  simp only [hm, hf, Option.isNone_some, Bool.false_eq_true, if_false, hu']
  rfl

theorem graftAt_of_empty (ht : t.root = none) (hf : (fr.formulas.find? fun f => s.nodes.length ≤ f) = none) :
    graftAt s none fr t = .ok (fr.place (t.nextSlots fr.size)).1.index
      { t.taken fr.size with root := some (fr.place (t.nextSlots fr.size)).1 } := by
  unfold graftAt
  rw [Routine.get_bind]
  simp only [ht, hf, Option.isSome_none, Bool.false_eq_true, if_false]
  rfl

theorem graftAt_error (parent : Option (List Nat)) {f : Nat} (hroot : parent = none → t.root = none)
    (hparent : ∀ l, parent = some l → (t.atLineage? l).isSome = true)
    (hf : (fr.formulas.find? fun f => s.nodes.length ≤ f) = some f) :
    graftAt s parent fr t = .error (Draft.outOfRange s.nodes.length f) t := by
  unfold graftAt
  rw [Routine.get_bind]
  cases parent with
  | none =>
    simp only [hroot rfl, hf, Option.isSome_none, Bool.false_eq_true, if_false]
    rfl
  | some l =>
    obtain ⟨m, hm⟩ := Option.isSome_iff_exists.mp (hparent l rfl)
    simp only [hm, hf, Option.isNone_some, Bool.false_eq_true, if_false]
    rfl

end Tree

namespace Arena

variable {s : Sentence} {a : Arena} {t : Tree}

/-- Nothing is put into slots of a formula that the sentence does not have. -/
theorem graft_error (parent : Option Nat) {p : Parts} {r : Record} (hroot : parent = none → a.root = none)
    (hparent : ∀ i, parent = some i → (a.node? i).isSome = true)
    (hf : (p.nodes.find? fun r => s.nodes.length ≤ r.formula) = some r) :
    graft s parent p a = .error (Draft.outOfRange s.nodes.length r.formula) a := by
  unfold graft
  rw [Routine.get_bind]
  cases parent with
  | none =>
    simp only [hroot rfl, hf, Option.isSome_none, Bool.false_eq_true, if_false]
    rfl
  | some i =>
    obtain ⟨r', hr'⟩ := Option.isSome_iff_exists.mp (hparent i rfl)
    simp only [node_ok hr', hf]
    rfl

theorem after_graft_of_unknown (parent : Option Nat) {p : Parts} {r : Record}
    (hf : (p.nodes.find? fun r => s.nodes.length ≤ r.formula) = some r) :
    (graft s parent p).after a = a := by
  cases parent with
  | none =>
    cases hroot : a.root with
    | some i => exact Routine.after_eq_of_error (graft_error_of_root hroot p)
    | none => exact Routine.after_eq_of_error (graft_error none (fun _ => hroot) nofun hf)
  | some i =>
    cases hr : a.node? i with
    | none => exact Routine.after_eq_of_error (graft_error_of_parent hr p)
    | some r' =>
      refine Routine.after_eq_of_error (graft_error (some i) nofun ?_ hf)
      rintro j ⟨⟩
      rw [hr, Option.isSome_some]

theorem place_parts (h : Holds s a t) (fr : Fragment) :
    (fr.place (t.nextSlots fr.size)).1 =
      (fr.place (List.range fr.size)).1.map (Cell.moved (a.place fr.size)) := by
  have hplace := fr.place_map_append (a.place fr.size) (List.range fr.size) [] (by simp)
  rwa [List.append_nil, map_place, h.nextSlots_eq] at hplace

theorem find?_formulas_parts (s : Sentence) (fr : Fragment) :
    (fr.formulas.find? fun f => s.nodes.length ≤ f) =
      (fr.parts.nodes.find? fun r => s.nodes.length ≤ r.formula).map (·.formula) := by
  rw [← fr.formulas_parts, List.find?_map]
  rfl

theorem Holds.alike_graft_root {fr : Fragment} (h : Holds s a t) (ht : t.root = none)
    (hf : ∀ r ∈ fr.parts.nodes, r.formula < s.nodes.length) :
    Routine.Alike (Holds s) (graft s none fr.parts a) (Tree.graftAt s none fr t) := by
  have hformulas := find?_formulas_parts s fr
  rw [find?_formulas hf] at hformulas
  obtain ⟨a₁, hrun, -, hheld⟩ := h.graft_root ht fr.shape_parts hf
  rw [fr.length_parts] at hrun hheld
  rw [hrun, Tree.graftAt_of_empty ht hformulas, place_parts h fr, Node.index_moved, fr.shape_parts.index]
  exact .ok hheld

theorem Holds.alike_graft_branch {fr : Fragment} {lineage : List Nat} {m : Node} (h : Holds s a t)
    (hm : t.atLineage? lineage = some m) (hf : ∀ r ∈ fr.parts.nodes, r.formula < s.nodes.length) :
    Routine.Alike (Holds s) (graft s (some m.index) fr.parts a) (Tree.graftAt s (some lineage) fr t) := by
  have hformulas := find?_formulas_parts s fr
  rw [find?_formulas hf] at hformulas
  obtain ⟨t', hu⟩ := Tree.exists_tree_update? (t := t.taken fr.size)
    (f := (·.graft (fr.place (t.nextSlots fr.size)).1)) hm
  have htree := Tree.graftAt_ok hm hformulas hu
  rw [place_parts h fr] at hu
  have hmoved : (t.taken fr.parts.nodes.length).update? lineage (·.graft
      ((fr.place (List.range fr.size)).1.map (Cell.moved (a.place fr.parts.nodes.length)))) = some t' := by
    rw [fr.length_parts]
    exact hu
  obtain ⟨a₁, hrun, -, hheld⟩ := h.graft_branch hm fr.shape_parts hf hmoved
  rw [fr.length_parts] at hrun hheld
  rw [hrun, htree, place_parts h fr, Node.index_moved, fr.shape_parts.index]
  exact .ok hheld

/-- A fragment is within the sentence, or the first formula that is not is found in either form. -/
theorem find?_parts_cases (s : Sentence) (fr : Fragment) :
    (∀ r ∈ fr.parts.nodes, r.formula < s.nodes.length) ∨
      ∃ r, (fr.parts.nodes.find? fun r => s.nodes.length ≤ r.formula) = some r ∧
        (fr.formulas.find? fun f => s.nodes.length ≤ f) = some r.formula := by
  have hformulas := find?_formulas_parts s fr
  cases hfind : fr.parts.nodes.find? fun r => s.nodes.length ≤ r.formula with
  | none => exact .inl fun r hr => by simpa using List.find?_eq_none.mp hfind r hr
  | some r =>
    rw [hfind] at hformulas
    exact .inr ⟨r, rfl, hformulas⟩

theorem Holds.alike_graft_none (h : Holds s a t) (fr : Fragment) :
    Routine.Alike (Holds s) (graft s none fr.parts a) (Tree.graftAt s none fr t) := by
  cases ht : t.root with
  | some n =>
    have htree : Tree.graftAt s none fr t = .error (.inconsistent "grafting a second root") t := by
      unfold Tree.graftAt
      rw [Routine.get_bind]
      simp only [ht, Option.isSome_some, if_true]
      rfl
    rw [graft_error_of_root (by rw [h.root, ht]; rfl), htree]
    exact .error h
  | none =>
    rcases find?_parts_cases s fr with hlt | ⟨r, hfind, hformulas⟩
    · exact h.alike_graft_root ht hlt
    · have hroot : a.root = none := by rw [h.root, ht]; rfl
      rw [graft_error none (fun _ => hroot) nofun hfind, Tree.graftAt_error none (fun _ => ht) nofun hformulas]
      exact .error h

theorem Holds.alike_graft_some {lineage : List Nat} {m : Node} (h : Holds s a t)
    (hm : t.atLineage? lineage = some m) (fr : Fragment) :
    Routine.Alike (Holds s) (graft s (some m.index) fr.parts a) (Tree.graftAt s (some lineage) fr t) := by
  rcases find?_parts_cases s fr with hlt | ⟨r, hfind, hformulas⟩
  · exact h.alike_graft_branch hm hlt
  · obtain ⟨p, hp⟩ := h.everywhere_of_atLineage? hm
    have hnode : a.node? m.index = some _ := hp.root.node
    have hlive : ∀ j, some m.index = some j → (a.node? j).isSome = true := by
      rintro j ⟨⟩
      rw [hnode, Option.isSome_some]
    have hat : ∀ l, some lineage = some l → (t.atLineage? l).isSome = true := by
      rintro l ⟨⟩
      rw [hm, Option.isSome_some]
    rw [graft_error (some m.index) nofun hlive hfind, Tree.graftAt_error (some lineage) nofun hat hformulas]
    exact .error h

/-- **Grafts** to arenas and to instantiations. -/
theorem simulates_graft (s : Sentence) (parent : Option Nat) (fr : Fragment) :
    Routine.Simulates (Holds s) (graft s parent fr.parts) (Tree.graft s parent fr) := by
  intro a t h
  cases parent with
  | none => exact h.alike_graft_none fr
  | some i =>
    change Routine.Alike _ _ ((Tree.lineage i >>= fun lineage => Tree.graftAt s (some lineage) fr) t)
    by_cases hi : i ∈ t.indices
    · obtain ⟨above, m, hlineage, hm, rfl⟩ := Tree.exists_lineage h.nodup hi
      rw [Routine.bind_ok hlineage]
      exact h.alike_graft_some hm fr
    · rw [graft_error_of_parent (h.vacant i hi).node, Routine.bind_error (Tree.lineage_error hi)]
      exact .error h

end Arena

end RuleMonitor
