import RuleMonitor.Proofs.Evaluation.Linking

/-!
# What evaluation writes

Evaluation and explanation answer nodes in the same places. To a cell they write truths, truths of
branches and links, and nothing else, whatever they find and whether the nodes are those of an instance
or not.

* `Node.Written`: nodes whose cells were written to.
* **`Setting.evaluate_writes`**, **`Setting.reevaluateChange_writes`**,
  **`Setting.reevaluateBatch_writes`**, **`Setting.explain_writes`**.
-/

namespace RuleMonitor

namespace Node

/-- Findings were written to the cells, one at a time. -/
inductive Written : Node → Node → Prop
  | refl (n : Node) : Written n n
  | trans {n m k : Node} (h : Written n m) (h' : Written m k) : Written n k
  | truth (c : Cell) (kids : List Node) (stage : Stage) (truth : Truth) :
    Written (mk c kids) (mk (c.write stage truth) kids)
  | branchTruth (c : Cell) (kids : List Node) (id : Nat) (truth : Truth) :
    Written (mk c kids) (mk { c with branchTruths := c.branchTruths.insert id truth } kids)
  | links (c : Cell) (kids : List Node) (links : LinkSet) :
    Written (mk c kids) (mk { c with links := some links } kids)
  | branch {n n' : Node} (c : Cell) (l r : List Node) (h : Written n n') :
    Written (mk c (l ++ n :: r)) (mk c (l ++ n' :: r))

variable {n n' : Node} {c c' : Cell} {kids kids' : List Node}

theorem Written.branches (h : List.Forall₂ Written kids kids') : ∀ before : List Node,
    Written (mk c (before ++ kids)) (mk c (before ++ kids')) := by
  induction h with
  | nil => exact fun _ => .refl _
  | @cons kid kid' kids kids' hkid _ ih =>
    intro before
    have hrest := ih (before ++ [kid'])
    rw [List.append_assoc, List.append_assoc] at hrest
    exact (Written.branch c before kids hkid).trans hrest

theorem Written.indices_eq (h : Written n n') : n'.indices = n.indices := by
  induction h with
  | refl => rfl
  | trans _ _ ih ih' => exact ih'.trans ih
  | truth c kids stage truth => cases stage <;> rw [indices_mk, indices_mk] <;> rfl
  | branchTruth | links => rw [indices_mk, indices_mk]
  | branch c l r _ ih => rw [indices_mk, indices_mk, List.flatMap_append, List.flatMap_cons, ih,
      List.flatMap_append, List.flatMap_cons]

end Node

namespace Setting

open Node (Written)

variable {s : Setting} {c c' : Cell} {kids : List Node} {stage : Stage} {subst : Option Substitution}

/-! ## Truths -/

theorem written_of_recordBranches {branches : List (Bool × Node)} (h : recordBranches c branches = .ok c')
    (kids : List Node) : Written (.mk c kids) (.mk c' kids) := by
  induction branches generalizing c with
  | nil =>
    cases h
    exact .refl _
  | cons branch branches ih =>
    obtain ⟨truth, kid⟩ := branch
    rw [recordBranches] at h
    cases hid : boundOf kid with
    | error e =>
      rw [hid] at h
      cases h
    | ok id =>
      rw [hid] at h
      exact (Written.branchTruth c kids id _).trans (ih h)

/-- The branches of a quantifier that are evaluated, behind others that are not. -/
theorem written_of_branches (stage : Stage) (before : List Node) {look : List Node}
    {branches : List (Bool × Node)}
    (hbranches : List.Forall₂ (fun kid e => kid.Written e.2) look branches)
    (hrecord : recordBranches c branches = .ok c') (truth : Bool) :
    Written (.mk c (before ++ look)) (conclude c' stage truth (before ++ branches.map (·.2))).2 :=
  ((Written.branches (List.forall₂_map_right_iff.mpr hbranches) before).trans
    (written_of_recordBranches hrecord _)).trans (.truth ..)

/-- The fresh branches of a quantifier are evaluated, and the old ones kept. -/
theorem written_of_freshKids {branches : List (Bool × Node)}
    (hbranches : List.Forall₂ (fun kid e => kid.Written e.2) (Node.mk c kids).freshKids branches)
    (hrecord : recordBranches c branches = .ok c') (truth : Bool) :
    Written (.mk c kids)
      (conclude c' stage truth ((Node.mk c kids).oldKids ++ branches.map (·.2))).2 := by
  have hwritten := written_of_branches stage (Node.mk c kids).oldKids hbranches hrecord truth
  rwa [Node.oldKids_append_freshKids] at hwritten

theorem committed_writes (n : Node) :
    Eval.Ensures (do return (← Routine.ofExcept n.cell.committed, n)) fun e => n.Written e.2 :=
  (Eval.ensures_ofExcept _).bind fun _ _ => Eval.ensures_pure (.refl n)

section Operands

variable {i : Nat} {x y : Node → Eval (Bool × Node)} (hx : ∀ n, (x n).Ensures fun e => n.Written e.2)
  (hy : ∀ n, (y n).Ensures fun e => n.Written e.2)

include hx

theorem operand_writes (truth : Bool → Bool) :
    Eval.Ensures (match kids with
      | [a] => do
        let (ta, a) ← x a
        return conclude c stage (truth ta) [a]
      | _ => throw (missingKid i kids.length)) fun e => (Node.mk c kids).Written e.2 := by
  rcases kids with _ | ⟨a, _ | ⟨_, _⟩⟩
  case cons.nil =>
    refine (hx a).bind fun ea ha => Eval.ensures_pure ?_
    exact (Written.branches (.cons ha .nil) []).trans (.truth ..)
  all_goals exact Eval.ensures_throw _

include hy

theorem operands_write (truth : Bool → Bool → Bool) :
    Eval.Ensures (match kids with
      | [a, b] => do
        let (ta, a) ← x a
        let (tb, b) ← y b
        return conclude c stage (truth ta tb) [a, b]
      | _ => throw (missingKid i kids.length)) fun e => (Node.mk c kids).Written e.2 := by
  rcases kids with _ | ⟨a, _ | ⟨b, _ | ⟨_, _⟩⟩⟩
  case cons.cons.nil =>
    refine (hx a).bind fun ea ha => (hy b).bind fun eb hb => Eval.ensures_pure ?_
    exact (Written.branches (.cons ha (.cons hb .nil)) []).trans (.truth ..)
  all_goals exact Eval.ensures_throw _

end Operands

/-- **Full evaluation** writes to the cells only. -/
theorem evaluate_writes {f : Formula} : ∀ n : Node,
    (s.evaluate stage subst f n).Ensures fun e => n.Written e.2 := by
  induction f with
  | quantified i q body ih =>
    rintro ⟨c, kids⟩
    refine (Eval.ensures_forEach _ fun kid _ => ih kid).bind fun branches hbranches =>
      (Eval.ensures_ofExcept _).bind fun c' hrecord => Eval.ensures_pure ?_
    exact written_of_branches _ [] hbranches hrecord _
  | binary i op left right ihl ihr =>
    rintro ⟨c, kids⟩
    exact operands_write ihl ihr op.eval
  | negation i body ih =>
    rintro ⟨c, kids⟩
    exact operand_writes ih (!·)
  | application i a =>
    rintro ⟨c, kids⟩
    exact (Eval.ensures_ofExcept _).bind fun truth _ => Eval.ensures_pure (.truth ..)

/-- **Evaluation after one change** writes to the cells only. -/
theorem reevaluateChange_writes {change : Change} {f : Formula} : ∀ n : Node,
    (s.reevaluateChange change f n).Ensures fun e => n.Written e.2 := by
  induction f with
  | quantified i q body ih =>
    rintro ⟨c, kids⟩
    unfold reevaluateChange
    split_ifs with haffected hpattern
    · exact committed_writes (.mk c kids)
    · cases change.kind with
      | addition =>
        refine (Eval.ensures_forEach _ fun kid _ => evaluate_writes kid).bind fun branches hbranches =>
          (Eval.ensures_ofExcept _).bind fun c' hrecord => (Eval.ensures_ofExcept _).bind fun base _ =>
            Eval.ensures_pure ?_
        exact written_of_freshKids hbranches hrecord _
      | deletion => exact (Eval.ensures_ofExcept _).bind fun truth _ => Eval.ensures_pure (.truth ..)
      | update => exact Eval.ensures_throw _
    · refine (Eval.ensures_forEach _ fun kid _ => ih kid).bind fun branches hbranches =>
        (Eval.ensures_ofExcept _).bind fun c' hrecord => Eval.ensures_pure ?_
      exact written_of_branches _ [] hbranches hrecord _
  | binary i op left right ihl ihr =>
    rintro ⟨c, kids⟩
    unfold reevaluateChange
    split_ifs
    · exact committed_writes (.mk c kids)
    · exact operands_write ihl ihr op.eval
  | negation i body ih =>
    rintro ⟨c, kids⟩
    unfold reevaluateChange
    split_ifs
    · exact committed_writes (.mk c kids)
    · exact operand_writes ih (!·)
  | application i a =>
    rintro ⟨c, kids⟩
    exact committed_writes (.mk c kids)

/-- **Evaluation after a batch** writes to the cells only. -/
theorem reevaluateBatch_writes {f : Formula} : ∀ n : Node,
    (s.reevaluateBatch stage f n).Ensures fun e => n.Written e.2 := by
  induction f with
  | quantified i q body ih =>
    rintro ⟨c, kids⟩
    unfold reevaluateBatch
    split_ifs with haffected hbody
    · exact committed_writes (.mk c kids)
    · refine (Eval.ensures_forEach (R := fun k e => k.2.Written e.2) _ ?_).bind
        fun branches hbranches => (Eval.ensures_ofExcept _).bind fun c' hrecord => Eval.ensures_pure ?_
      · rintro ⟨fresh, kid⟩ -
        cases fresh with
        | false => exact ih kid
        | true => exact evaluate_writes kid
      · have hkids : ((Node.mk c kids).oldKids.map (false, ·) ++
            (Node.mk c kids).freshKids.map (true, ·)).map Prod.snd = kids := by
          rw [List.map_append, List.map_map, List.map_map]
          exact (congrArg₂ _ (List.map_id _) (List.map_id _)).trans (Node.oldKids_append_freshKids _)
        have hwritten := (List.forall₂_map_left_iff (R := fun kid (e : Bool × Node) => Written kid e.2)
          (f := Prod.snd)).mpr hbranches
        rw [hkids] at hwritten
        exact written_of_branches _ [] hwritten hrecord _
    · refine (Eval.ensures_forEach _ fun kid _ => evaluate_writes kid).bind fun branches hbranches =>
        (Eval.ensures_ofExcept _).bind fun c' hrecord => (Eval.ensures_ofExcept _).bind fun base _ =>
          Eval.ensures_pure ?_
      exact written_of_freshKids hbranches hrecord _
  | binary i op left right ihl ihr =>
    rintro ⟨c, kids⟩
    unfold reevaluateBatch
    split_ifs
    · exact committed_writes (.mk c kids)
    · exact operands_write ihl ihr op.eval
  | negation i body ih =>
    rintro ⟨c, kids⟩
    unfold reevaluateBatch
    split_ifs
    · exact committed_writes (.mk c kids)
    · exact operand_writes ih (!·)
  | application i a =>
    rintro ⟨c, kids⟩
    exact committed_writes (.mk c kids)

/-! ## Links -/

/-- The links that were found are written, and the nodes visited are there. -/
structure Visits (n : Node) (e : Explained) : Prop where
  written : n.Written e.node
  visited : e.visited ⊆ n.indices

theorem visits_takenOver (n : Node) (links : LinkSet) : Visits n (s.takenOver n links) where
  written := .refl n
  visited := by
    unfold takenOver
    split_ifs
    · exact List.cons_subset.mpr ⟨n.index_mem_indices, List.nil_subset _⟩
    · exact List.nil_subset _

/-- A node is explained from branches that were, behind others that were not looked at. -/
theorem visits_explained (s : Setting) (c : Cell) (before : List Node) {look : List Node}
    {es : List Explained} (h : List.Forall₂ Visits look es) (links : LinkSet) : Visits (.mk c (before ++ look))
      (s.explained c (before ++ es.map Explained.node) links (es.flatMap Explained.visited)) where
  written := by
    have hnodes : List.Forall₂ Written look (es.map Explained.node) :=
      List.forall₂_map_right_iff.mpr (h.imp fun _ _ hv => hv.written)
    exact (Written.branches hnodes before).trans (.links ..)
  visited := by
    have hbelow : es.flatMap Explained.visited ⊆ (before ++ look).flatMap Node.indices := by
      intro i hi
      obtain ⟨e, he, hi⟩ := List.mem_flatMap.mp hi
      obtain ⟨kid, hk, hv⟩ := Lists.exists_of_forall₂ h he
      exact List.mem_flatMap.mpr ⟨kid, List.mem_append_right _ hk, hv.visited hi⟩
    unfold explained
    rw [Node.indices_mk]
    split_ifs
    · exact List.cons_subset_cons _ hbelow
    · exact List.subset_cons_of_subset _ hbelow

theorem visits_visit {f : Formula} {kid : Node} {was : Nat → Bool} (w : Bool)
    (ih : (s.explain was f kid).Ensures (Visits kid)) :
    Eval.Ensures (if w || !s.minimalLinks then s.explain was f kid else pure ⟨∅, kid, []⟩) (Visits kid) := by
  split_ifs
  · exact ih
  · exact Eval.ensures_pure ⟨.refl kid, List.nil_subset _⟩

/-- The branches of a quantifier, some passed over and the others looked at. -/
theorem visits_branches {q : Quantifier} {body : Formula} {was : Nat → Bool} (links₀ : LinkSet)
    (before look : List Node) (hands : List (Bool × Node) → Bool)
    (ih : ∀ kid, (s.explain was body kid).Ensures (Visits kid)) :
    Eval.Ensures (do
      let judged ← Routine.ofExcept (judge q look)
      let results ← Eval.forEach (hands judged) (fun x : Bool × Node =>
        if x.1 || !s.minimalLinks then do return (x.1, ← s.explain was body x.2)
        else return (x.1, ⟨∅, x.2, []⟩)) judged
      let all ← Routine.ofExcept (collectLinks q links₀ results)
      return s.explained c (before ++ results.map fun r => r.2.node) all
        (results.flatMap fun r => r.2.visited))
      (Visits (.mk c (before ++ look))) := by
  refine (Eval.ensures_ofExcept _).bind fun judged hj => ?_
  refine (Eval.ensures_forEach (R := fun x y => Visits x.2 y.2) _ fun x _ => ?_).bind fun results hres =>
    (Eval.ensures_ofExcept _).bind fun links _ => Eval.ensures_pure ?_
  · have hvisit := visits_visit x.1 (ih x.2)
    split_ifs at hvisit ⊢
    · exact hvisit.bind fun e he => Eval.ensures_pure he
    · exact Eval.ensures_pure (hvisit.of_yields (Eval.yields_pure _))
  · have hvisits : List.Forall₂ Visits look (results.map Prod.snd) := by
      rw [← map_snd_of_judge hj]
      exact List.forall₂_map_left_iff.mpr (List.forall₂_map_right_iff.mpr hres)
    have hexplained := visits_explained s c before hvisits links
    rwa [List.map_map, List.flatMap_map] at hexplained

/-- **An explanation** writes to the cells only, and visits nodes that are there. -/
theorem explain_writes {was : Nat → Bool} {f : Formula} : ∀ n : Node,
    (s.explain was f n).Ensures (Visits n) := by
  induction f with
  | quantified i q body ih =>
    rintro ⟨c, kids⟩
    unfold explain
    refine ensures_takeOver (n := .mk c kids) (fun _ => visits_takenOver _ _) ?_
    cases hkept : (if s.focus.affects (.quantified i q body) then
      s.keptLinks body c (!s.minimalLinks || was c.index) else none) with
    | none => exact visits_branches ∅ [] kids _ ih
    | some links₀ =>
      have hvisits := visits_branches (c := c) (q := q) links₀ (Node.mk c kids).oldKids
        (Node.mk c kids).freshKids (fun judged => s.handsOut i (judged.countP fun k => k.1 || !s.minimalLinks)) ih
      rw [Node.oldKids_append_freshKids] at hvisits
      exact hvisits
  | binary i op left right ihl ihr =>
    rintro ⟨c, kids⟩
    unfold explain
    refine ensures_takeOver (n := .mk c kids) (fun _ => visits_takenOver _ _) ?_
    rcases kids with _ | ⟨a, _ | ⟨b, _ | ⟨_, _⟩⟩⟩
    case cons.cons.nil =>
      refine (Eval.ensures_ofExcept _).bind fun ta _ => (Eval.ensures_ofExcept _).bind fun tb _ =>
        (Eval.ensures_ofExcept _).bind fun truth _ => ?_
      refine (visits_visit _ (ihl a)).ite_bind fun ea ha =>
        (visits_visit _ (ihr b)).ite_bind fun eb hb => Eval.ensures_pure ?_
      have hvisits := visits_explained s c [] (.cons ha (.cons hb .nil))
        (op.explain truth ta tb ea.links eb.links)
      simpa using hvisits
    all_goals exact Eval.ensures_throw _
  | negation i body ih =>
    rintro ⟨c, kids⟩
    unfold explain
    refine ensures_takeOver (n := .mk c kids) (fun _ => visits_takenOver _ _) ?_
    rcases kids with _ | ⟨a, _ | ⟨_, _⟩⟩
    case cons.nil =>
      refine (ih a).bind fun ea ha => Eval.ensures_pure ?_
      have hvisits := visits_explained s c [] (.cons ha .nil) ea.links.flipped
      simpa using hvisits
    all_goals exact Eval.ensures_throw _
  | application i a =>
    rintro ⟨c, kids⟩
    unfold explain
    refine ensures_takeOver (n := .mk c kids) (fun _ => visits_takenOver _ _) ?_
    have hvisits := visits_explained s c kids .nil ∅
    exact Eval.ensures_pure (by simpa using hvisits)

/-- The links of an instantiation are found and written, if they are asked for. -/
theorem explainTree_writes (t : Tree) : (s.explainTree t).Ensures fun t' => t' = t ∨
    ∃ n e, t.root = some n ∧ Visits n e ∧
      t' = { t with root := some e.node }.markSubstantial e.visited := by
  unfold explainTree
  cases ht : t.root with
  | none => exact Eval.ensures_pure (.inl rfl)
  | some n =>
    refine (Eval.ensures_ofExcept _).bind fun truth _ => ?_
    split_ifs
    · exact Eval.ensures_pure (.inl rfl)
    · exact (explain_writes n).bind fun e he => Eval.ensures_pure (.inr ⟨n, e, rfl, he, rfl⟩)

end Setting

end RuleMonitor
