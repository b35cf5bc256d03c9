import RuleMonitor.Proofs.Evaluation.Editing
import RuleMonitor.Proofs.Evaluation.Reshaping

/-!
# Edits planned from deltas

The edits that are planned for a node turn an instance over the pools before a batch into one over the
pools after it. They are planned on the tree before any of them is applied, yet none of them addresses a
slot that an edit before it freed: besides removals, which free the slots of different branches, they
only address nodes that stay.

* `Setting.removed_ok`: the branches to be removed.
* `Setting.Plans`: what edits have to do with a node that they are planned for.
* **`Setting.exists_plans`**: the edits planned for an instance;
  **`Setting.planNode_achieves`**: what they make of it if its truths were found.
-/

namespace RuleMonitor

open Std (ExtTreeMap ExtTreeSet)

namespace Setting

variable {s : Setting} {P : Pools} {q : Quantifier} {c : Cell} {kids : List Node}

/-! ## Branches that are removed -/

/-- The branches where the variable is bound to a context are those bound to it. -/
theorem branchesOf_eq (hpl : (kids.map Node.place).Perm (q.places P c.env)) (x : Context) :
    branchesOf q kids x = kids.filter fun kid => kid.cell.bound.getD 0 = x.id := by
  refine List.filter_congr fun kid hk => ?_
  obtain ⟨y, -, hb, he⟩ := Formula.exists_of_places hpl hk
  have hv : (kid.cell.env[q.var]? : Option Context) = some y := by
    rw [he, Quantifier.bind, Map.getElem?_insert, if_pos rfl]
  rw [hv, hb]
  rfl

theorem filter_eq_singleton {α β : Type} [DecidableEq β] {l : List α} {g : α → β}
    (hd : (l.map g).Nodup) {a : α} (ha : a ∈ l) : l.filter (fun b => g b = g a) = [a] := by
  induction l with
  | nil => cases ha
  | cons b l ih =>
    rw [List.map_cons, List.nodup_cons] at hd
    have hnone : ∀ b', g b' ∉ l.map g → l.filter (fun x => g x = g b') = [] := by
      intro b' hb'
      refine List.filter_eq_nil_iff.mpr fun x hx => ?_
      have : g x ≠ g b' := fun e => hb' (e ▸ List.mem_map.mpr ⟨x, hx, rfl⟩)
      simpa using this
    rcases List.mem_cons.mp ha with rfl | ha
    · rw [List.filter_cons_of_pos (by simp), hnone a hd.1]
    · have hne : g b ≠ g a := fun e => hd.1 (e ▸ List.mem_map.mpr ⟨a, ha, rfl⟩)
      rw [List.filter_cons_of_neg (by simpa using hne), ih hd.2 ha]

theorem branchOf_ok (hP : P.Keyed) (hpl : (kids.map Node.place).Perm (q.places P c.env))
    {x : Context} (hx : P.live? q.pattern x.id = some x) :
    ∃ branch : Option Node, branchOf q (.mk c kids) x = .ok branch ∧
      ∀ kid, kid ∈ branch ↔ kid ∈ kids ∧ kid.cell.bound.getD 0 = x.id := by
  have hnd := Formula.nodup_bounds hP hpl
  unfold branchOf
  rw [Node.kids_mk, Node.cell_mk, branchesOf_eq hpl]
  cases ha : q.admits c.env x with
  | true =>
    have hmem : x ∈ q.range P c.env := (Pools.mem_range hP).mpr ⟨hx, ha⟩
    obtain ⟨kid, hk, hb, -⟩ := Formula.exists_kid_of_places hpl hmem
    have hkb : kid.cell.bound.getD 0 = x.id := by
      rw [hb, Option.getD_some]
    have hone := filter_eq_singleton hnd hk
    rw [hkb] at hone
    rw [hone]
    refine ⟨some kid, rfl, fun k => ?_⟩
    have hiff : k ∈ kids ∧ k.cell.bound.getD 0 = x.id ↔
        k ∈ kids.filter fun k => k.cell.bound.getD 0 = x.id := by
      rw [List.mem_filter, decide_eq_true_iff]
    rw [hiff, hone, List.mem_singleton, Option.mem_some]
    exact eq_comm
  | false =>
    have hnone : ∀ kid ∈ kids, kid.cell.bound.getD 0 ≠ x.id := by
      intro kid hk e
      obtain ⟨y, hy, hb, -⟩ := Formula.exists_of_places hpl hk
      rw [hb, Option.getD_some] at e
      obtain ⟨hyl, hya⟩ := (Pools.mem_range hP).mp hy
      rw [e, hx] at hyl
      cases hyl
      rw [ha] at hya
      cases hya
    have hnil : (kids.filter fun kid => kid.cell.bound.getD 0 = x.id) = [] :=
      List.filter_eq_nil_iff.mpr fun kid hk => by simpa using hnone kid hk
    rw [hnil]
    exact ⟨none, rfl, fun k => ⟨nofun, fun h => absurd h.2 (hnone k h.1)⟩⟩

theorem branchesFor_ok (hP : P.Keyed) (hpl : (kids.map Node.place).Perm (q.places P c.env))
    (hi : (kids.map Node.index).Nodup) {xs : List Context} :
    (∀ x ∈ xs, P.live? q.pattern x.id = some x) → (xs.map (·.id)).Nodup →
    ∃ gone : List Node, branchesFor q (.mk c kids) xs = .ok (gone.map Node.index) ∧
      (gone.map Node.index).Nodup ∧
      ∀ kid, kid ∈ gone ↔ kid ∈ kids ∧ kid.cell.bound.getD 0 ∈ xs.map (·.id) := by
  induction xs with
  | nil => exact fun _ _ => ⟨[], rfl, .nil, fun kid => by simp⟩
  | cons x xs ih =>
    intro hx hd
    rw [List.forall_mem_cons] at hx
    rw [List.map_cons, List.nodup_cons] at hd
    obtain ⟨branch, hbr, hbm⟩ := branchOf_ok hP hpl hx.1
    obtain ⟨gone, hg, hgd, hgm⟩ := ih hx.2 hd.2
    rw [branchesFor, hbr, hg]
    cases branch with
    | none =>
      refine ⟨gone, rfl, hgd, fun kid => ?_⟩
      rw [hgm, List.map_cons, List.mem_cons]
      refine and_congr_right fun hk => (or_iff_right fun e => ?_).symm
      exact nomatch (hbm kid).mpr ⟨hk, e⟩
    | some kid =>
      have hkid := (hbm kid).mp rfl
      refine ⟨kid :: gone, rfl, ?_, fun k => ?_⟩
      · rw [List.map_cons, List.nodup_cons]
        refine ⟨fun hm => ?_, hgd⟩
        obtain ⟨k, hk, e⟩ := List.mem_map.mp hm
        obtain ⟨hkk, hkx⟩ := (hgm k).mp hk
        have := List.inj_on_of_nodup_map hi hkk hkid.1 e
        subst this
        rw [hkid.2] at hkx
        exact hd.1 hkx
      · rw [List.mem_cons, hgm, List.map_cons, List.mem_cons]
        constructor
        · rintro (rfl | h)
          · exact ⟨hkid.1, .inl hkid.2⟩
          · exact ⟨h.1, .inr h.2⟩
        · rintro ⟨hk, e | h⟩
          · exact .inl (Option.some.inj ((hbm k).mpr ⟨hk, e⟩)).symm
          · exact .inr ⟨hk, h⟩

theorem removed_ok (hP : P.Keyed) (hsep : s.facts.SeparatedFrom P)
    (hpl : (kids.map Node.place).Perm (q.places P c.env)) (hi : (kids.map Node.index).Nodup) :
    ∃ gone : List Node, branchesFor q (.mk c kids)
        (formerContexts (s.facts.delta q.pattern)) = .ok (gone.map Node.index) ∧
      (gone.map Node.index).Nodup ∧
      gone.Perm (kids.filter fun kid => (s.facts.delta q.pattern).drops (kid.cell.bound.getD 0)) ∧
      (kids.filter fun k => k.index ∉ gone.map Node.index) =
        (s.facts.delta q.pattern).staying kids ∧
      (!gone.isEmpty) =
        decide (((s.facts.delta q.pattern).staying kids).length < kids.length) := by
  have hkey : ∀ (id : Nat) (x : Context), (P.pool q.pattern)[id]? = some x → x.id = id :=
    fun id x h => hP q.pattern id x h
  obtain ⟨gone, hg, hgd, hgm⟩ := branchesFor_ok hP hpl hi
    (fun x hx => (((hsep q.pattern).mem_formerContexts hkey).mp hx).1)
    ((hsep q.pattern).nodup_formerContexts hkey)
  have hdrop : ∀ kid ∈ kids,
      (kid ∈ gone ↔ (s.facts.delta q.pattern).drops (kid.cell.bound.getD 0) = true) := by
    intro kid hk
    obtain ⟨y, hy, hb, -⟩ := Formula.exists_of_places hpl hk
    have hyl : (P.pool q.pattern)[y.id]? = some y := ((Pools.mem_range hP).mp hy).1
    rw [hgm, hb, Option.getD_some, List.mem_map]
    constructor
    · rintro ⟨-, x, hx, e⟩
      rw [← e]
      exact (((hsep q.pattern).mem_formerContexts hkey).mp hx).2
    · exact fun h => ⟨hk, y, ((hsep q.pattern).mem_formerContexts hkey).mpr ⟨hyl, h⟩, rfl⟩
  have hperm : gone.Perm
      (kids.filter fun kid => (s.facts.delta q.pattern).drops (kid.cell.bound.getD 0)) := by
    refine (List.perm_ext_iff_of_nodup hgd.of_map (hi.of_map.filter _)).mpr fun kid => ?_
    rw [List.mem_filter]
    exact ⟨fun h => ⟨((hgm kid).mp h).1, (hdrop kid ((hgm kid).mp h).1).mp h⟩,
      fun h => (hdrop kid h.1).mpr h.2⟩
  have hfilter : (kids.filter fun k => k.index ∉ gone.map Node.index) =
      (s.facts.delta q.pattern).staying kids := by
    refine List.filter_congr fun kid hk => ?_
    have hmem : kid.index ∈ gone.map Node.index ↔ kid ∈ gone := by
      refine ⟨fun h => ?_, fun h => List.mem_map.mpr ⟨kid, h, rfl⟩⟩
      obtain ⟨k, hkg, e⟩ := List.mem_map.mp h
      rwa [← List.inj_on_of_nodup_map hi ((hgm k).mp hkg).1 hk e]
    rw [Bool.eq_iff_iff, decide_eq_true_iff, hmem, hdrop kid hk, Bool.not_eq_true',
      Bool.not_eq_true]
  refine ⟨gone, hg, hgd, hperm, hfilter, ?_⟩
  rw [Bool.eq_iff_iff, decide_eq_true_iff, Delta.staying, List.length_filter_lt_length_iff_exists]
  constructor
  · intro h
    cases gone with
    | nil => cases h
    | cons kid gone =>
      have hk := ((hgm kid).mp List.mem_cons_self).1
      have := (hdrop kid hk).mp List.mem_cons_self
      exact ⟨kid, hk, by simpa using this⟩
  · rintro ⟨kid, hk, hd⟩
    have hmem := (hdrop kid hk).mpr (by simpa using hd)
    cases gone with
    | nil => cases hmem
    | cons => rfl

end Setting

/-! ## The slots that edits address -/

/-- The slots of the node that an edit is of and of the nodes above it. -/
def Edit.lineage : Edit → List Nat
  | touch lineage | remove lineage | graft lineage _ => lineage

/-- The edit addresses a slot of a node, and one that is to be freed only to remove it. -/
def Edit.Fits (n : Node) (freed : List Nat) (e : Edit) : Prop :=
  ∃ i above, e.lineage = i :: above ∧ i ∈ n.indices ∧ (i ∈ freed → e = .remove e.lineage)

namespace Edit

variable {n kid : Node} {freed freed' : List Nat} {e : Edit}

theorem index_eq (e : Edit) : e.index = e.lineage.headD 0 := by
  cases e <;> rfl

theorem Fits.index_mem (h : e.Fits n freed) : e.index ∈ n.indices := by
  obtain ⟨i, above, hl, hi, -⟩ := h
  rw [index_eq, hl]
  exact hi

theorem Fits.eq_remove (h : e.Fits n freed) (hf : e.index ∈ freed) : e = .remove e.lineage := by
  obtain ⟨i, above, hl, -, hr⟩ := h
  refine hr ?_
  rwa [index_eq, hl] at hf

theorem Fits.below (h : e.Fits kid freed') (i : Nat) (hk : kid ∈ n.kids)
    (hf : ∀ i ∈ kid.indices, i ∈ freed → i ∈ freed') : (e.below [i]).Fits n freed := by
  obtain ⟨j, above, hl, hj, hr⟩ := h
  refine ⟨j, above ++ [i], ?_, Node.mem_indices_of_mem_kids hk hj, fun hjf => ?_⟩
  · rw [← List.cons_append, ← hl]
    cases e <;> rfl
  · rw [hr (hf j hj hjf)]
    rfl

end Edit

namespace Setting

variable {s : Setting} {P : Pools} {q : Quantifier} {c : Cell} {kids gone : List Node} {i : Nat}
  {f body left right : Formula} {n : Node} {r : Registry}

/-! ## The edits planned -/

/-- The edits are what is planned for a node. They make of it what is right after the batch, free the
slots of the branches that go, and do not address them but to remove them. -/
structure Plans (s : Setting) (f : Formula) (n : Node) (es : List Edit) : Prop where
  yields : ∀ above, (s.planNode f above n).Yields (es.map (Edit.below above))
  performs : Tree.Performs s.sentence (f.Reshaped s) (f.dropped s) es n
  fits : ∀ e ∈ es, e.Fits n (f.dropped s n)

theorem plans_of_unaffected (ha : s.focus.affects f = false) (n : Node) : s.Plans f n [] where
  yields above := by
    obtain ⟨c, kids⟩ := n
    cases f with
    | quantified i q body | binary i op left right | negation i body =>
      unfold planNode
      simp only [ha, Bool.not_false, if_true]
      exact Eval.yields_pure _
    | application i a => exact Eval.yields_pure _
  performs := Tree.performs_nil ((Formula.reshaped_iff_of_unaffected ha).mpr rfl)
    (Formula.dropped_of_unaffected ha n)
  fits := nofun

theorem map_below_flatMap (i : Nat) (above : List Nat) (ess : List (List Edit)) :
    (ess.flatMap fun es => es.map (Edit.below [i])).map (Edit.below above) =
      ess.flatMap fun es => es.map (Edit.below (i :: above)) := by
  rw [List.map_flatMap]
  refine List.flatMap_congr fun es _ => ?_
  rw [List.map_map]
  exact List.map_congr_left fun e _ => e.below_below [i] above

section Quantified

/-- The edits of a quantifier: branches are removed, those that stay are edited, and the branches of
contexts are grafted. -/
def branchEdits (s : Setting) (q : Quantifier) (body : Formula) (c : Cell) (gone : List Node)
    (ess : List (List Edit)) (xs : List Context) : List Edit :=
  .touch [c.index] :: gone.map (fun kid => .remove [kid.index, c.index]) ++
    (ess.flatMap fun es => es.map (Edit.below [c.index])) ++
    (xs.map fun x => body.fragment s.facts.pools (q.bind c.env x) (some x.id)).map
      (.graft [c.index])

variable {ess : List (List Edit)}

theorem yields_branchEdits (ha : s.focus.affects (.quantified i q body))
    (hg : branchesFor q (.mk c kids) (formerContexts (s.facts.delta q.pattern)) =
      .ok (gone.map Node.index))
    (hstay : (kids.filter fun k => k.index ∉ gone.map Node.index) =
      (s.facts.delta q.pattern).staying kids)
    (hess : List.Forall₂ (s.Plans body) ((s.facts.delta q.pattern).staying kids) ess)
    (hnil : s.focus.affects body = false → ∀ es ∈ ess, es = []) (above : List Nat) :
    (s.planNode (.quantified i q body) above (.mk c kids)).Yields
      ((s.branchEdits q body c gone ess ((newContexts (s.facts.delta q.pattern)).filter
        fun x => q.admits c.env x)).map (Edit.below above)) := by
  have hitems : (kids.filter fun kid => !(gone.map Node.index).contains kid.index) =
      (s.facts.delta q.pattern).staying kids := by
    rw [← hstay]
    refine List.filter_congr fun kid _ => ?_
    rw [List.contains_eq_mem, decide_not]
  have hinner : ∃ inner, Eval.Yields
      (if s.focus.affects body then
        s.forBranches i (planNode s body (c.index :: above))
          (kids.filter fun kid => !(gone.map Node.index).contains kid.index)
      else pure []) inner ∧
      inner.flatten = ess.flatMap fun es => es.map (Edit.below (c.index :: above)) := by
    by_cases hb : s.focus.affects body
    · refine ⟨ess.map fun es => es.map (Edit.below (c.index :: above)), ?_, List.flatMap_def.symm⟩
      rw [if_pos hb, hitems]
      refine s.yields_forBranches i ?_
      rw [List.forall₂_map_right_iff]
      exact hess.imp fun _ _ h => h.yields _
    · refine ⟨[], ?_, ?_⟩
      · rw [if_neg hb]
        exact Eval.yields_pure _
      · symm
        refine List.flatMap_eq_nil_iff.mpr fun es hes => ?_
        rw [hnil (by simpa using hb) es hes, List.map_nil]
  obtain ⟨inner, hin, hflat⟩ := hinner
  let xs := (newContexts (s.facts.delta q.pattern)).filter fun x => q.admits c.env x
  have hbranches := s.yields_forBranches i
    (f := fun x : Context => s.instantiate body (q.bind c.env x) (some x.id))
    (List.forall₂_map_right_iff.mpr (List.forall₂_same.mpr fun x (_ : x ∈ xs) =>
      s.instantiate_yields body (q.bind c.env x) (some x.id)))
  unfold planNode
  simp only [ha, Bool.not_true, Bool.false_eq_true, if_false]
  refine Eval.Yields.congr ((Eval.yields_ofExcept hg).bind
    (hin.ite_bind (hbranches.bind (Eval.yields_pure _)))) ?_
  rw [hflat]
  simp only [branchEdits, List.map_append, List.map_cons, List.map_map, map_below_flatMap]
  rfl

/-- The branches that go, and what goes of those that stay, are all that goes. -/
theorem dropped_perm (ha : s.focus.affects (.quantified i q body)) (c : Cell)
    (hg : gone.Perm
      (kids.filter fun kid => (s.facts.delta q.pattern).drops (kid.cell.bound.getD 0))) :
    (gone.flatMap Node.slots ++
      ((s.facts.delta q.pattern).staying kids).flatMap (body.dropped s)).Perm
      ((Formula.quantified i q body).dropped s (.mk c kids)) := by
  rw [Formula.dropped, if_pos ha]
  refine List.Perm.trans ?_ ((List.filter_append_perm
    (fun kid : Node => (s.facts.delta q.pattern).drops (kid.cell.bound.getD 0)) kids).flatMap_right _)
  rw [List.flatMap_append]
  refine List.Perm.append ((hg.flatMap_right _).trans ?_) (List.Perm.of_eq ?_)
  · refine List.Perm.flatMap_left _ fun kid hk => ?_
    rw [if_pos (List.mem_filter.mp hk).2]
    exact kid.slots_perm
  · refine List.flatMap_congr fun kid hk => (if_neg ?_).symm
    simpa using (List.mem_filter.mp hk).2

theorem performs_branchEdits (ha : s.focus.affects (.quantified i q body))
    (hr : body.ReadFrom s.sentence.nodes) (hb : ∀ kid ∈ kids, kid.cell.bound.isSome = true)
    (hd : (kids.map fun kid => kid.cell.bound.getD 0).Nodup) (hgd : (gone.map Node.index).Nodup)
    (hgone : gone.Perm
      (kids.filter fun kid => (s.facts.delta q.pattern).drops (kid.cell.bound.getD 0)))
    (hstay : (kids.filter fun k => k.index ∉ gone.map Node.index) =
      (s.facts.delta q.pattern).staying kids)
    (hpruned : (!gone.isEmpty) =
      decide (((s.facts.delta q.pattern).staying kids).length < kids.length))
    (hess : List.Forall₂ (s.Plans body) ((s.facts.delta q.pattern).staying kids) ess) :
    Tree.Performs s.sentence ((Formula.quantified i q body).Reshaped s)
      ((Formula.quantified i q body).dropped s)
      (s.branchEdits q body c gone ess ((newContexts (s.facts.delta q.pattern)).filter
        fun x => q.admits c.env x)) (.mk c kids) := by
  intro t live ht ho
  have htouch := Tree.touch_root (s := s.sentence) ht
  let c₁ : Cell := { c with fresh := 0, pruned := false }
  have hgk : ∀ kid ∈ gone, kid ∈ kids := fun kid hk => List.mem_of_mem_filter (hgone.mem_iff.mp hk)
  obtain ⟨t₂, truths, hruns₂, ht₂, htruths, hf₂⟩ :=
    Tree.remove_branches (s := s.sentence) gone c₁ kids { t with root := some (.mk c₁ kids) } rfl ho
      hb hd rfl hgk hgd
  have ho₂ := hruns₂.owns rfl ht₂ ho
  rw [hstay] at ht₂ ho₂ htruths
  obtain ⟨t₃, kept, hruns₃, ht₃, hkept, hf₃⟩ :=
    Tree.performs_branches (hess.imp fun _ _ h => h.performs) [] t₂ ht₂ ho₂
  let xs := (newContexts (s.facts.delta q.pattern)).filter fun x => q.admits c.env x
  let frs := xs.map fun x => body.fragment s.facts.pools (q.bind c.env x) (some x.id)
  have hfrs : ∀ fr ∈ frs, ∀ g ∈ fr.formulas, g < s.sentence.nodes.length := by
    intro fr hfr
    obtain ⟨x, -, rfl⟩ := List.mem_map.mp hfr
    exact Formula.formulas_fragment hr
  obtain ⟨t₄, new, hruns₄, ht₄, hnew⟩ := Tree.graft_branches frs hfrs _ _ t₃ ht₃
  have hgrafted : List.Forall₂ (q.Grafted s.facts.pools body c.env) xs new := by
    rw [List.forall₂_map_left_iff] at hnew
    exact hnew
  have hf₄ : t₃.freedBy s.sentence (frs.map (.graft [c.index])) = [] :=
    Tree.freedBy_eq_nil (fun e he t => by obtain ⟨fr, -, rfl⟩ := List.mem_map.mp he; rfl) t₃
  have hfreed : t.freedBy s.sentence (s.branchEdits q body c gone ess xs) =
      gone.flatMap Node.slots ++
        t₂.freedBy s.sentence (ess.flatMap fun es => es.map (Edit.below [c.index])) := by
    refine (Tree.freedBy_cons htouch _).trans ?_
    refine ((hruns₂.append hruns₃).freedBy_append _).trans ?_
    rw [hruns₂.freedBy_append, hf₂]
    exact (congrArg _ hf₄).trans (List.append_nil _)
  refine ⟨t₄, _, .cons htouch rfl ((hruns₂.append hruns₃).append hruns₄), ht₄, ?_, ?_⟩
  · rw [Formula.Reshaped, if_pos ha]
    refine ⟨kept, new, truths, hkept, hgrafted, htruths, ?_⟩
    rw [← hpruned, Nat.zero_add]
    rfl
  · rw [hfreed]
    exact (hf₃.append_left _).trans (dropped_perm ha c hgone)

theorem fits_branchEdits (ha : s.focus.affects (.quantified i q body))
    (hd : (Node.mk c kids).indices.Nodup) (hgone : ∀ kid ∈ gone, kid ∈ kids)
    (hess : List.Forall₂ (s.Plans body) ((s.facts.delta q.pattern).staying kids) ess)
    (xs : List Context) : ∀ e ∈ s.branchEdits q body c gone ess xs,
      e.Fits (.mk c kids) ((Formula.quantified i q body).dropped s (.mk c kids)) := by
  have hself : c.index ∉ (Formula.quantified i q body).dropped s (.mk c kids) :=
    Formula.index_notMem_dropped hd
  have hmem : c.index ∈ (Node.mk c kids).indices := Node.index_mem_indices _
  intro e he
  simp only [branchEdits, List.mem_append, List.mem_cons, List.mem_map, List.mem_flatMap] at he
  rcases he with ((rfl | ⟨kid, hk, rfl⟩) | ⟨es, hes, e, he, rfl⟩) | ⟨fr, -, rfl⟩
  · exact ⟨c.index, [], rfl, hmem, fun h => absurd h hself⟩
  · exact ⟨kid.index, [c.index], rfl,
      Node.mem_indices_of_mem_kids (hgone kid hk) kid.index_mem_indices, fun _ => rfl⟩
  · obtain ⟨kid, hk, hplans⟩ := Lists.exists_of_forall₂ hess hes
    have hkk := Delta.mem_of_mem_staying hk
    have hstay : ¬(s.facts.delta q.pattern).drops (kid.cell.bound.getD 0) = true := by
      simpa using (List.mem_filter.mp hk).2
    refine (hplans.fits e he).below c.index hkk fun j hj h => ?_
    exact ((Formula.mem_dropped_branch hd ha hkk hj).mp h).resolve_left hstay
  · exact ⟨c.index, [], rfl, hmem, fun h => absurd h hself⟩

theorem plans_quantified (hP : P.Keyed) (hsep : s.facts.SeparatedFrom P)
    (ha : s.focus.affects (.quantified i q body)) (hr : body.ReadFrom s.sentence.nodes)
    (hpl : (kids.map Node.place).Perm (q.places P c.env)) (hd : (Node.mk c kids).indices.Nodup)
    (hkids : ∀ kid ∈ kids, ∃ es, s.Plans body kid es) :
    ∃ es, s.Plans (.quantified i q body) (.mk c kids) es := by
  obtain ⟨gone, hg, hgd, hgone, hstay, hpruned⟩ := removed_ok hP hsep hpl (Node.nodup_index_kids hd)
  obtain ⟨ess, hess, hnil⟩ : ∃ ess,
      List.Forall₂ (s.Plans body) ((s.facts.delta q.pattern).staying kids) ess ∧
        (s.focus.affects body = false → ∀ es ∈ ess, es = []) := by
    by_cases hb : s.focus.affects body
    · obtain ⟨ess, hess⟩ := Lists.exists_forall₂ fun kid hk =>
        hkids kid (Delta.mem_of_mem_staying hk)
      exact ⟨ess, hess, fun h => absurd hb (by simp [h])⟩
    · have hb' : s.focus.affects body = false := by simpa using hb
      refine ⟨((s.facts.delta q.pattern).staying kids).map fun _ => [], ?_, fun _ es hes => ?_⟩
      · rw [List.forall₂_map_right_iff]
        exact List.forall₂_same.mpr fun kid _ => plans_of_unaffected hb' kid
      · obtain ⟨kid, -, rfl⟩ := List.mem_map.mp hes
        rfl
  exact ⟨_, yields_branchEdits ha hg hstay hess hnil,
    performs_branchEdits ha hr (isSome_of_places hpl) (Formula.nodup_bounds hP hpl) hgd hgone hstay
      hpruned hess,
    fits_branchEdits ha hd (fun kid hk => List.mem_of_mem_filter (hgone.mem_iff.mp hk)) hess _⟩

end Quantified

section Connectives

variable {a b : Node} {op : Connective} {es es₁ es₂ : List Edit}

theorem plans_binary (ha : s.focus.affects (.binary i op left right))
    (hd : (Node.mk c [a, b]).indices.Nodup) (h₁ : s.Plans left a es₁) (h₂ : s.Plans right b es₂) :
    s.Plans (.binary i op left right) (.mk c [a, b])
      (es₁.map (Edit.below [c.index]) ++ es₂.map (Edit.below [c.index])) where
  yields above := by
    unfold planNode
    simp only [ha, Bool.not_true, Bool.false_eq_true, if_false]
    refine Eval.Yields.congr ((h₁.yields _).bind ((h₂.yields _).bind (Eval.yields_pure _))) ?_
    have := map_below_flatMap c.index above [es₁, es₂]
    simpa using this.symm
  performs := by
    intro t live ht ho
    obtain ⟨t₁, a₁, hruns₁, ht₁, hR₁, hf₁⟩ := h₁.performs.branch (l := []) ht ho
    have ho₁ := hruns₁.owns ht ht₁ ho
    obtain ⟨t₂, b₁, hruns₂, ht₂, hR₂, hf₂⟩ := h₂.performs.branch (l := [a₁]) ht₁ ho₁
    refine ⟨t₂, _, hruns₁.append hruns₂, ht₂, ?_, ?_⟩
    · rw [Formula.Reshaped, if_pos ha]
      exact ⟨a, b, a₁, b₁, rfl, hR₁, hR₂, rfl⟩
    · rw [hruns₁.freedBy_append, Formula.dropped_binary c a b ha]
      exact hf₁.append hf₂
  fits e he := by
    rcases List.mem_append.mp he with he | he
    · obtain ⟨e₁, he₁, rfl⟩ := List.mem_map.mp he
      exact (h₁.fits e₁ he₁).below c.index (by simp) fun j hj =>
        (Formula.mem_dropped_left hd ha hj).mp
    · obtain ⟨e₂, he₂, rfl⟩ := List.mem_map.mp he
      exact (h₂.fits e₂ he₂).below c.index (by simp) fun j hj =>
        (Formula.mem_dropped_right hd ha hj).mp

theorem plans_negation (ha : s.focus.affects (.negation i body)) (h : s.Plans body a es) :
    s.Plans (.negation i body) (.mk c [a]) (es.map (Edit.below [c.index])) where
  yields above := by
    unfold planNode
    simp only [ha, Bool.not_true, Bool.false_eq_true, if_false]
    refine (h.yields _).congr ?_
    have := map_below_flatMap c.index above [es]
    simpa using this.symm
  performs := by
    intro t live ht ho
    obtain ⟨t₁, a₁, hruns₁, ht₁, hR₁, hf₁⟩ := h.performs.branch (l := []) ht ho
    refine ⟨t₁, _, hruns₁, ht₁, ?_, ?_⟩
    · rw [Formula.Reshaped, if_pos ha]
      exact ⟨a, a₁, rfl, hR₁, rfl⟩
    · rwa [Formula.dropped_negation c a ha]
  fits e he := by
    obtain ⟨e₁, he₁, rfl⟩ := List.mem_map.mp he
    refine (h.fits e₁ he₁).below c.index (by simp) fun j _ hj => ?_
    rwa [Formula.dropped_negation c a ha] at hj

end Connectives

/-- **Edits are planned** for every instance over the pools before the batch. -/
theorem exists_plans (hP : P.Keyed) (hsep : s.facts.SeparatedFrom P) : ∀ {n : Node},
    f.ReadFrom s.sentence.nodes → f.Every (Formula.Placed P) n → n.indices.Nodup →
    ∃ es, s.Plans f n es := by
  induction f with
  | quantified i q body ih =>
    rintro ⟨c, kids⟩ hr hp hd
    by_cases ha : s.focus.affects (.quantified i q body)
    · exact plans_quantified hP hsep ha hr.2 hp.1.2 hd fun kid hk =>
        ih hr.2 (hp.2 kid hk) (Node.nodup_indices_kid hd hk)
    · exact ⟨[], plans_of_unaffected (by simpa using ha) _⟩
  | binary i op left right ihl ihr =>
    rintro ⟨c, kids⟩ hr ⟨-, a, b, rfl, hpa, hpb⟩ hd
    by_cases ha : s.focus.affects (.binary i op left right)
    · obtain ⟨es₁, h₁⟩ := ihl hr.2.1 hpa (Node.nodup_indices_kid hd (by simp))
      obtain ⟨es₂, h₂⟩ := ihr hr.2.2 hpb (Node.nodup_indices_kid hd (by simp))
      exact ⟨_, plans_binary ha hd h₁ h₂⟩
    · exact ⟨[], plans_of_unaffected (by simpa using ha) _⟩
  | negation i body ih =>
    rintro ⟨c, kids⟩ hr ⟨-, a, rfl, hpa⟩ hd
    by_cases ha : s.focus.affects (.negation i body)
    · obtain ⟨es, h⟩ := ih hr.2 hpa (Node.nodup_indices_kid hd (by simp))
      exact ⟨_, plans_negation ha h⟩
    · exact ⟨[], plans_of_unaffected (by simpa using ha) _⟩
  | application i a =>
    intro n hr hp hd
    exact ⟨[], fun above => Eval.yields_pure _, Tree.performs_nil rfl rfl, nofun⟩

theorem plan_yields {t : Tree} {es : List Edit} (ht : t.root = some n)
    (h : ∀ above, (s.planNode s.sentence.formula above n).Yields (es.map (Edit.below above))) :
    (s.plan t).Yields es := by
  have hself : es.map (Edit.below []) = es := by
    refine List.map_id'' (fun e => ?_) es
    cases e <;> simp only [Edit.below, List.append_nil]
  unfold plan
  rw [ht]
  rw [← hself]
  exact h []

end Setting

/-! ## Instances whose truths were found -/

/-- At a node, whatever the tree around it, the edits succeed and make of it what a relation tells. -/
def Tree.Achieves (s : Sentence) (R : Node → Node → Prop) (es : List Edit) (n : Node) : Prop :=
  ∀ (t : Tree) (live : List Nat), t.root = some n → t.Owns (n.indices ++ live) →
    ∃ t' n', Runs s es t t' ∧ t'.root = some n' ∧ R n n' ∧ t'.Owns (n'.indices ++ live) ∧
      t.Shrinks t'

theorem Tree.Performs.achieves {s : Sentence} {R R' : Node → Node → Prop} {freed : Node → List Nat}
    {es : List Edit} {n : Node} (h : Performs s R freed es n) (hR : ∀ n', R n n' → R' n n') :
    Achieves s R' es n := by
  intro t live ht ho
  obtain ⟨t', n', hruns, ht', hn, -⟩ := h t live ht ho
  exact ⟨t', n', hruns, ht', hR n' hn, hruns.owns ht ht' ho, hruns.shrinks (ht ▸ rfl)⟩

/-- **The edits planned for an instance** make of it what the cycle is to evaluate. -/
theorem Setting.planNode_achieves {s : Setting} {P : Pools} {r : Registry} {f : Formula} {n : Node}
    (hP : P.Keyed) (hsep : s.facts.SeparatedFrom P) (hr : f.ReadFrom s.sentence.nodes)
    (hp : f.Every (Formula.Placed P) n) (hf : f.Every (Formula.Found r P) n) (hd : n.indices.Nodup) :
    ∃ es, (∀ above, (s.planNode f above n).Yields (es.map (Edit.below above))) ∧
      Tree.Achieves s.sentence (f.Reworked s) es n := by
  obtain ⟨es, h⟩ := exists_plans hP hsep hr hp hd
  exact ⟨es, h.yields, h.performs.achieves fun _ hR => hR.reworked hf⟩

end RuleMonitor
