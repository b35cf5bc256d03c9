import RuleMonitor.Proofs.Evaluation.Explanation

/-!
# Links from scratch

What the links of a node should be is told by the truths found for the nodes below it and by the
contexts that its branches are bound to, whatever links these nodes have. It is what an explanation
that takes nothing over finds, and over an instance it is the links of the formula.

* `Quantifier.collect`, `Formula.linksOf`: links from the truths and the bindings of a tree.
* **`Setting.explain_scratch`**: an explanation from scratch.
* **`Formula.linksOf_eq_links`**: the links of an instance.
-/

namespace RuleMonitor

open Std (ExtTreeSet)

/-- The links of the branches that are witnesses, each with the binding of its context. -/
def Quantifier.collect (q : Quantifier) (links : Node → LinkSet) : List Node → LinkSet
  | [] => ∅
  | kid :: rest =>
    let more := q.collect links rest
    match kid.cell.bound with
    | some id =>
      if kid.cell.staged = .ofBool q.kind.witnessTruth then
        (links kid).withBinding q.kind.linkKind q.var id ∪ more
      else more
    | none => more

namespace Formula

/-- The links of a node from the truths and the bindings of the nodes below it. -/
def linksOf : Formula → Node → LinkSet
  | quantified _ q body, n => q.collect (linksOf body) n.kids
  | binary _ op left right, n =>
    match n.kids with
    | [a, b] =>
      op.explain (n.cell.staged = .yes) (a.cell.staged = .yes) (b.cell.staged = .yes)
        (linksOf left a) (linksOf right b)
    | _ => ∅
  | negation _ body, n =>
    match n.kids with
    | [a] => (linksOf body a).flipped
    | _ => ∅
  | application .., _ => ∅

/-- The truth of the node was found, and its branches are bound if it is a quantifier. -/
def Judged (f : Formula) (c : Cell) (kids : List Node) : Prop :=
  (∃ b, c.staged = .ofBool b) ∧
    match f with
    | quantified .. => ∀ kid ∈ kids, kid.cell.bound.isSome = true
    | _ => True

end Formula

namespace Quantifier

variable {q : Quantifier} {links links' : Node → LinkSet} {kids kids' : List Node} {l : Link}

theorem mem_collect : l ∈ q.collect links kids ↔ ∃ kid ∈ kids, ∃ id, kid.cell.bound = some id ∧
    kid.cell.staged = .ofBool q.kind.witnessTruth ∧
      l ∈ (links kid).withBinding q.kind.linkKind q.var id := by
  induction kids with
  | nil => simp [collect]
  | cons kid kids ih =>
    rw [collect, List.exists_mem_cons_iff, ← ih]
    cases kid.cell.bound with
    | none => simp
    | some id =>
      simp only [Option.some.injEq, exists_eq_left']
      split_ifs with h
      · rw [ExtTreeSet.mem_union_iff, and_iff_right h]
      · rw [iff_comm, or_iff_right fun h' => h h'.1]

/-- **The links of some branches and of the others** are those of all. -/
theorem collect_append (kids kids' : List Node) :
    q.collect links (kids ++ kids') = q.collect links kids ∪ q.collect links kids' := by
  refine ExtTreeSet.ext_mem fun {l} => ?_
  simp only [ExtTreeSet.mem_union_iff, mem_collect, List.mem_append, or_and_right, exists_or]

theorem collect_congr {g : Node → Node} (h : ∀ kid ∈ kids, (g kid).cell.bound = kid.cell.bound ∧
    (g kid).cell.staged = kid.cell.staged ∧ links' (g kid) = links kid) :
    q.collect links' (kids.map g) = q.collect links kids := by
  induction kids with
  | nil => rfl
  | cons kid kids ih =>
    rw [List.forall_mem_cons] at h
    rw [List.map_cons, collect, collect, h.1.1, h.1.2.1, h.1.2.2, ih h.2]

end Quantifier

theorem Truth.decide_ofBool (b : Bool) : decide (ofBool b = yes) = b := by
  cases b <;> rfl

namespace Formula

variable {r : Registry} {P : Pools} {f : Formula} {n : Node}

theorem linksOf_map (f : Formula) {g : Cell → Cell}
    (hg : ∀ c, (g c).staged = c.staged ∧ (g c).bound = c.bound) :
    ∀ n : Node, f.linksOf (n.map g) = f.linksOf n := by
  have hcell : ∀ n : Node, (n.map g).cell.staged = n.cell.staged := fun n => by
    rw [Node.cell_map, (hg _).1]
  induction f with
  | quantified i q body ih =>
    intro n
    rw [linksOf, linksOf, Node.kids_map]
    refine Quantifier.collect_congr fun kid _ => ⟨?_, hcell kid, ih kid⟩
    rw [Node.cell_map, (hg _).2]
  | binary i op left right ihl ihr =>
    rintro ⟨c, kids⟩
    rw [linksOf, linksOf, Node.kids_map, hcell]
    match kids with
    | [a, b] =>
      change op.explain _ ((a.map g).cell.staged = .yes) ((b.map g).cell.staged = .yes)
        (left.linksOf (a.map g)) (right.linksOf (b.map g)) = _
      rw [hcell, hcell, ihl, ihr]
      rfl
    | [] | [_] | _ :: _ :: _ :: _ => rfl
  | negation i body ih =>
    rintro ⟨c, kids⟩
    rw [linksOf, linksOf, Node.kids_map]
    match kids with
    | [a] => exact congrArg LinkSet.flipped (ih a)
    | [] | _ :: _ :: _ => rfl
  | application i a => exact fun _ => rfl

/-- What some branches of a quantifier tell, if each of them tells the links of the body. -/
theorem mem_collect_linksOf {q : Quantifier} {body : Formula} {env : Env} {kids look : List Node}
    {l : Link} (hpl : (kids.map Node.place).Perm (q.places P env)) (hlook : ∀ kid ∈ look, kid ∈ kids)
    (hf : ∀ kid ∈ look, body.Every (Found r P) kid)
    (hl : ∀ kid ∈ look, body.linksOf kid = body.links r P kid.cell.env) :
    l ∈ q.collect body.linksOf look ↔ Gathers r P q body look l := by
  rw [Quantifier.mem_collect]
  refine exists_congr fun kid => and_congr_right fun hk => ?_
  obtain ⟨x, -, hb, -⟩ := exists_of_places hpl (hlook kid hk)
  have hst : kid.cell.staged = .ofBool q.kind.witnessTruth ↔
      body.holds r P kid.cell.env = q.kind.witnessTruth := by
    rw [(hf kid hk).root.1]
    exact ⟨fun e => Option.some.inj (by simpa using congrArg Truth.toBool? e), congrArg _⟩
  rw [hb, hl kid hk, hst]
  simp only [Option.some.injEq, exists_eq_left', Option.getD_some]

/-- **The links of an instance** are those of its formula. -/
theorem linksOf_eq_links : ∀ {n : Node}, f.Every (Placed P) n → f.Every (Found r P) n →
    f.linksOf n = f.links r P n.cell.env := by
  induction f with
  | quantified i q body ih =>
    rintro ⟨c, kids⟩ hp hf
    have hpl : (kids.map Node.place).Perm (q.places P c.env) := hp.1.2
    refine ExtTreeSet.ext_mem fun {l} => ?_
    rw [linksOf, Node.cell_mk, mem_links_of_places hpl]
    exact mem_collect_linksOf hpl (fun _ h => h) hf.2 fun kid hk => ih (hp.2 kid hk) (hf.2 kid hk)
  | binary i op left right ihl ihr =>
    rintro ⟨c, kids⟩ ⟨hpl, a, b, rfl, hpa, hpb⟩ hf
    obtain ⟨hf, hfa, hfb⟩ := every_binary.mp hf
    have hea : a.cell.env = c.env := hpl.left_env
    have heb : b.cell.env = c.env := hpl.right_env
    change op.explain (c.staged = .yes) (a.cell.staged = .yes) (b.cell.staged = .yes)
      (left.linksOf a) (right.linksOf b) = _
    rw [ihl hpa hfa, ihr hpb hfb, hf.1, hfa.root.1, hfb.root.1, hea, heb, Truth.decide_ofBool,
      Truth.decide_ofBool, Truth.decide_ofBool]
    rfl
  | negation i body ih =>
    rintro ⟨c, kids⟩ ⟨hpl, a, rfl, hpa⟩ hf
    obtain ⟨-, hfa⟩ := every_negation.mp hf
    have hea : a.cell.env = c.env := hpl.operand_env
    change (body.linksOf a).flipped = _
    rw [ih hpa hfa, hea]
    rfl
  | application i a => exact fun _ _ => rfl

end Formula

namespace Setting

variable {s : Setting} {f body : Formula} {n : Node}

theorem judge_judged {q : Quantifier} {look : List Node}
    (h : ∀ kid ∈ look, ∃ b, kid.cell.staged = .ofBool b) :
    judge q look = .ok (look.map fun kid =>
      (decide (kid.cell.staged = .ofBool q.kind.witnessTruth), kid)) := by
  unfold judge
  refine Formula.mapM_ok fun kid hk => ?_
  obtain ⟨b, hb⟩ := h kid hk
  rw [Cell.stagedTruth, hb, Truth.toBool?_ofBool]
  cases b <;> cases q.kind.witnessTruth <;> rfl

theorem visit_scratch {was : Nat → Bool} (wanted : Bool)
    (h : ∃ e, (s.explain was f n).Yields e ∧ e.links = f.linksOf n ∧
      e.node.cell.bound = n.cell.bound) :
    ∃ e, Eval.Yields
        (if wanted || !s.minimalLinks then s.explain was f n else pure ⟨∅, n, []⟩) e ∧
      (wanted = true → e.links = f.linksOf n) ∧ e.node.cell.bound = n.cell.bound := by
  obtain ⟨e, hy, hl, hb⟩ := h
  by_cases hw : (wanted || !s.minimalLinks) = true
  · rw [if_pos hw]
    exact ⟨e, hy, fun _ => hl, hb⟩
  · rw [if_neg hw]
    exact ⟨_, Eval.yields_pure _, fun h => absurd (Bool.or_eq_true_iff.mpr (.inl h)) hw, rfl⟩

/-- The links of the branches that are witnesses are joined, whatever was found for the others. -/
theorem collectLinks_scratch {q : Quantifier} {kids : List Node} {results : List (Bool × Explained)}
    (hbound : ∀ kid ∈ kids, kid.cell.bound.isSome = true)
    (h : List.Forall₂ (fun kid x => x.1 = decide (kid.cell.staged = .ofBool q.kind.witnessTruth) ∧
      (x.1 = true → x.2.links = body.linksOf kid) ∧ x.2.node.cell.bound = kid.cell.bound)
      kids results) :
    collectLinks q ∅ results = .ok (q.collect body.linksOf kids) := by
  have hsome : ∀ x ∈ results, x.2.node.cell.bound.isSome = true := by
    intro x hx
    obtain ⟨kid, hk, -, -, hb⟩ := Lists.exists_of_forall₂ h hx
    rw [hb]
    exact hbound kid hk
  obtain ⟨L, hL, hmem⟩ := collectLinks_ok (q := q) ∅ hsome
  rw [hL, Except.ok.injEq]
  refine ExtTreeSet.ext_mem fun {l} => ?_
  rw [hmem, Quantifier.mem_collect, or_iff_right ExtTreeSet.not_mem_empty]
  constructor
  · rintro ⟨x, hx, hw, hlx⟩
    obtain ⟨kid, hk, hjudged, hlinks, hb⟩ := Lists.exists_of_forall₂ h hx
    obtain ⟨id, hid⟩ := Option.isSome_iff_exists.mp (hbound kid hk)
    rw [hlinks hw, hb, hid] at hlx
    exact ⟨kid, hk, id, hid, of_decide_eq_true (hjudged.symm.trans hw), hlx⟩
  · rintro ⟨kid, hk, id, hid, hw, hlx⟩
    obtain ⟨x, hx, hjudged, hlinks, hb⟩ := Lists.exists_of_forall₂ h.flip hk
    have hwitness : x.1 = true := hjudged.trans (decide_eq_true hw)
    refine ⟨x, hx, hwitness, ?_⟩
    rwa [hlinks hwitness, hb, hid]

theorem exists_visits_scratch {was : Nat → Bool} {q : Quantifier} {kids : List Node}
    (h : ∀ kid ∈ kids, ∃ e, (s.explain was body kid).Yields e ∧ e.links = body.linksOf kid ∧
      e.node.cell.bound = kid.cell.bound) :
    ∃ results : List (Bool × Explained),
      (∀ concurrent, (Eval.forEach concurrent (fun x : Bool × Node =>
          if x.1 || !s.minimalLinks then do return (x.1, ← s.explain was body x.2)
          else return (x.1, ⟨∅, x.2, []⟩))
        (kids.map fun kid => (decide (kid.cell.staged = .ofBool q.kind.witnessTruth), kid))).Yields results) ∧
      List.Forall₂ (fun kid x => x.1 = decide (kid.cell.staged = .ofBool q.kind.witnessTruth) ∧
        (x.1 = true → x.2.links = body.linksOf kid) ∧ x.2.node.cell.bound = kid.cell.bound) kids results := by
  let w (kid : Node) : Bool := kid.cell.staged = .ofBool q.kind.witnessTruth
  let visit (x : Bool × Node) : Eval (Bool × Explained) :=
    if x.1 || !s.minimalLinks then do return (x.1, ← s.explain was body x.2)
    else return (x.1, ⟨∅, x.2, []⟩)
  obtain ⟨results, hres⟩ : ∃ results, List.Forall₂ (fun kid (x : Bool × Explained) =>
      (visit (w kid, kid)).Yields x ∧ x.1 = w kid ∧ (x.1 = true → x.2.links = body.linksOf kid) ∧
        x.2.node.cell.bound = kid.cell.bound) kids results := by
    refine Lists.exists_forall₂ fun kid hk => ?_
    obtain ⟨e, hy, he⟩ := visit_scratch (w kid) (h kid hk)
    refine ⟨(w kid, e), ?_, rfl, he⟩
    unfold visit
    dsimp only
    split_ifs at hy ⊢
    · exact hy.map (Prod.mk (w kid))
    · exact hy.map (Prod.mk (w kid))
  exact ⟨results, fun concurrent => Eval.yields_forEach concurrent
    (List.forall₂_map_left_iff.mpr (hres.imp fun _ _ h => h.1)), hres.imp fun _ _ h => h.2⟩

/-- **An explanation from scratch** finds the links that the truths and the bindings below tell. -/
theorem explain_scratch (s : Setting) (was : Nat → Bool) (hs : s.focus = .everything) : ∀ {n : Node},
    f.Every Formula.Judged n → ∃ e, (s.explain was f n).Yields e ∧ e.links = f.linksOf n ∧
      e.node.cell.bound = n.cell.bound := by
  have haffects : ∀ g, s.focus.affects g = true := fun g => by
    rw [hs]
    rfl
  induction f with
  | quantified i q body ih =>
    rintro ⟨c, kids⟩ ⟨⟨-, hbound⟩, hkids⟩
    obtain ⟨results, hforEach, hres⟩ := exists_visits_scratch (q := q) fun kid hk => ih (hkids kid hk)
    unfold explain keptLinks
    simp only [haffects, Bool.not_true, Bool.false_and, Bool.false_eq_true, if_false, if_true]
    exact ⟨_, (Eval.yields_ofExcept (judge_judged fun kid hk => (hkids kid hk).root.1)).bind
      ((hforEach _).bind ((Eval.yields_ofExcept (collectLinks_scratch hbound hres)).bind
        (Eval.yields_pure _))), rfl, rfl⟩
  | binary i op left right ihl ihr =>
    rintro ⟨c, kids⟩ ⟨⟨⟨t, ht⟩, -⟩, a, b, rfl, ha, hb⟩
    obtain ⟨⟨ta, hta⟩, -⟩ := ha.root
    obtain ⟨⟨tb, htb⟩, -⟩ := hb.root
    obtain ⟨x, hx, hlx, -⟩ := visit_scratch (op.feeds t ta tb).1 (ihl ha)
    obtain ⟨y, hy, hly, -⟩ := visit_scratch (op.feeds t ta tb).2 (ihr hb)
    have hstaged : ∀ {c : Cell} {t : Bool}, c.staged = .ofBool t → c.stagedTruth = .ok t :=
      fun {c t} h => by rw [Cell.stagedTruth, h, Truth.toBool?_ofBool]
    unfold explain
    simp only [haffects, Bool.not_true, Bool.false_and, Bool.false_eq_true, if_false]
    refine ⟨_, (Eval.yields_ofExcept (hstaged hta)).bind ((Eval.yields_ofExcept (hstaged htb)).bind
      ((Eval.yields_ofExcept (hstaged ht)).bind (hx.ite_bind (hy.ite_bind
        (Eval.yields_pure _))))), ?_, rfl⟩
    change op.explain t ta tb x.links y.links = op.explain (c.staged = .yes) (a.cell.staged = .yes)
      (b.cell.staged = .yes) (left.linksOf a) (right.linksOf b)
    rw [explain_congr op hlx hly, ht, hta, htb, Truth.decide_ofBool, Truth.decide_ofBool,
      Truth.decide_ofBool]
  | negation i body ih =>
    rintro ⟨c, kids⟩ ⟨-, a, rfl, ha⟩
    obtain ⟨x, hx, hlx, -⟩ := ih ha
    unfold explain
    simp only [haffects, Bool.not_true, Bool.false_and, Bool.false_eq_true, if_false]
    exact ⟨_, hx.bind (Eval.yields_pure _), congrArg LinkSet.flipped hlx, rfl⟩
  | application i a =>
    rintro ⟨c, kids⟩ -
    unfold explain
    simp only [haffects, Bool.not_true, Bool.false_and, Bool.false_eq_true, if_false]
    exact ⟨_, Eval.yields_pure _, rfl, rfl⟩

end Setting

end RuleMonitor
