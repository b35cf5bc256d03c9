import RuleMonitor.Evaluation.Explanation
import RuleMonitor.Proofs.Evaluation.Incremental

/-!
# Explanations of instances

The links found for an instance are those of its formula, whatever was kept from cycles before. Links
may be taken over from nodes that the cycle does not affect, and from quantifiers of which only new
branches have to be looked at, if they are trusted to be right: with minimal links, the nodes visited
in the cycle before are trusted, and otherwise all.

* `Formula.Carried`: what is known of the links of an instance before its links are generated.
* `Setting.Passed`, `Setting.Explains`: a node after the traversal, without links and with them;
  `Setting.Looked`: a branch that was looked at.
* `Setting.explain_branches`, `Setting.explains_binary`, `Setting.explains_negation`: a node from its
  branches.
* **`Setting.explain_yields`**: the links of an instance, and the nodes to be trusted afterwards.
-/

namespace RuleMonitor

open Std (ExtTreeMap ExtTreeSet)

/-- A formula that quantifies over fewer patterns is affected less often. -/
theorem Focus.affects_of_subset {focus : Focus} {f g : Formula} (h : g.patterns ⊆ f.patterns)
    (hf : focus.affects f = false) : focus.affects g = false := by
  cases focus with
  | everything => cases hf
  | patterns ps =>
    rw [affects, ← Bool.not_eq_true, Formula.ranges_iff] at hf ⊢
    rintro ⟨p, hp, hps⟩
    exact hf ⟨p, h hp, hps⟩

namespace Formula

/-- The links of branches with the bindings of a quantifier, of those branches that are witnesses. -/
def Gathers (r : Registry) (P : Pools) (q : Quantifier) (body : Formula) (kids : List Node)
    (l : Link) : Prop :=
  ∃ kid ∈ kids, body.holds r P kid.cell.env = q.kind.witnessTruth ∧
    l ∈ (body.links r P kid.cell.env).withBinding q.kind.linkKind q.var (kid.cell.bound.getD 0)

/-- Links that are trusted are right where the cycle does not affect the formula. Where it does, those
of a quantifier with a body that is not affected are the links of the branches that stayed, if none was
removed. -/
def Carried (r : Registry) (P : Pools) (focus : Focus) (trusted : Nat → Prop) (f : Formula)
    (c : Cell) (kids : List Node) : Prop :=
  trusted c.index → ∀ L ∈ c.links,
    if focus.affects f = true then
      match f with
      | quantified _ q body => focus.affects body = false → c.pruned = false →
        ∀ l, l ∈ L ↔ Gathers r P q body (Node.mk c kids).oldKids l
      | _ => True
    else L = f.links r P c.env

variable {r : Registry} {P : Pools} {focus : Focus} {trusted : Nat → Prop} {f : Formula} {n : Node}

theorem gathers_append {q : Quantifier} {body : Formula} {kids kids' : List Node} {l : Link} :
    Gathers r P q body (kids ++ kids') l ↔
      Gathers r P q body kids l ∨ Gathers r P q body kids' l := by
  unfold Gathers
  simp only [List.mem_append, or_and_right, exists_or]

theorem gathers_congr {q : Quantifier} {body : Formula} {kids kids' : List Node}
    (h : kids.map Node.place = kids'.map Node.place) {l : Link} :
    Gathers r P q body kids l ↔ Gathers r P q body kids' l := by
  have hplaces : ∀ ks : List Node, Gathers r P q body ks l ↔ ∃ p ∈ ks.map Node.place,
      body.holds r P p.2 = q.kind.witnessTruth ∧
        l ∈ (body.links r P p.2).withBinding q.kind.linkKind q.var (p.1.getD 0) := by
    intro ks
    simp only [List.mem_map, exists_exists_and_eq_and]
    exact Iff.rfl
  rw [hplaces, hplaces, h]

theorem Every.carried_of_base {n' : Node} (e : n.map Cell.base = n'.map Cell.base)
    (h : f.Every (Carried r P focus trusted) n) : f.Every (Carried r P focus trusted) n' := by
  refine Every.of_map ?_ e h
  intro f c c' kids kids' hc hk hcarried ht L hL
  have hi : c.index = c'.index := by simpa using congrArg Cell.index hc
  have hl : c.links = c'.links := by simpa using congrArg Cell.links hc
  have he : c.env = c'.env := by simpa using congrArg Cell.env hc
  have hpruned : c.pruned = c'.pruned := by simpa using congrArg Cell.pruned hc
  have hfresh : c.fresh = c'.fresh := by simpa using congrArg Cell.fresh hc
  have hkp : kids.map Node.place = kids'.map Node.place := by
    have := congrArg (List.map fun b : Cell => (b.bound, b.env)) hk
    rwa [List.map_map, List.map_map] at this
  have hlen : kids.length = kids'.length := by
    simpa using congrArg List.length hkp
  have hold : (Node.mk c kids).oldKids.map Node.place = (Node.mk c' kids').oldKids.map Node.place := by
    unfold Node.oldKids
    rw [List.map_take, List.map_take, Node.kids_mk, Node.kids_mk, Node.cell_mk, Node.cell_mk, hkp,
      hlen, hfresh]
  have hL' := hcarried (hi ▸ ht) L (hl ▸ hL)
  by_cases ha : focus.affects f = true
  · rw [if_pos ha] at hL' ⊢
    cases f with
    | quantified i q body =>
      intro hb hp l
      exact (hL' hb (hpruned.trans hp) l).trans (gathers_congr hold)
    | binary i op left right | negation i body | application i a => exact trivial
  · rw [if_neg ha] at hL' ⊢
    rw [hL', he]

theorem Every.cached_of_carried (ha : focus.affects f = false)
    (h : f.Every (Carried r P focus trusted) n) : f.Every (Cached r P trusted) n := by
  refine h.imp fun g hg m _ hc ht L hL => ?_
  have hl := hc ht L hL
  rwa [Focus.affects_of_subset (patterns_subset hg) ha, if_neg Bool.false_ne_true] at hl

theorem Every.cached_mono {trusted' : Nat → Prop} (ht : ∀ i ∈ n.indices, trusted' i → trusted i)
    (h : f.Every (Cached r P trusted) n) : f.Every (Cached r P trusted') n :=
  h.imp fun _ _ m hm hcached hi =>
    hcached (ht m.index (List.mem_map.mpr ⟨m.cell, Node.cell_mem_cells_of_mem hm, rfl⟩) hi)

end Formula

/-- The node is left as it was but for its links; the slots visited are below it, and the links that
are to be trusted are right. -/
structure Setting.Passed (s : Setting) (P : Pools) (f : Formula) (n : Node) (e : Explained) :
    Prop where
  unlinked : e.node.map Cell.unlinked = n.map Cell.unlinked
  visited : ∀ i ∈ e.visited, i ∈ n.indices
  cached : f.Every (Formula.Cached s.registry P fun i => s.minimalLinks = true → i ∈ e.visited)
    e.node

/-- The links are those of the formula, and the node has them. -/
structure Setting.Explains (s : Setting) (P : Pools) (f : Formula) (n : Node) (e : Explained) :
    Prop extends s.Passed P f n e where
  links : e.links = f.links s.registry P n.cell.env
  own : e.node.cell.links = some e.links

namespace Setting

variable {s : Setting} {P : Pools} {f body : Formula} {n : Node} {c : Cell} {kids : List Node}

theorem Passed.bound {e : Explained} (h : s.Passed P f n e) : e.node.cell.bound = n.cell.bound := by
  have := congrArg (fun m : Node => m.cell.bound) h.unlinked
  simpa [Cell.unlinked] using this

/-! ## Nodes that are not visited -/

/-- A node that is not visited; with minimal links it is not trusted any more, and otherwise the cycle
must not affect it. -/
theorem passed_over {trusted : Nat → Prop}
    (hc : f.Every (Formula.Carried s.registry P s.focus trusted) n)
    (h : s.minimalLinks = false → s.focus.affects f = false ∧ ∀ i, trusted i) :
    s.Passed P f n ⟨∅, n, []⟩ where
  unlinked := rfl
  visited := nofun
  cached := by
    cases hm : s.minimalLinks with
    | false => exact (hc.cached_of_carried (h hm).1).cached_mono fun i _ _ => (h hm).2 i
    | true => exact hc.imp fun _ _ _ _ _ ht => nomatch ht rfl

/-! ## Slots visited -/

theorem visited_subset {es : List Explained}
    (h : List.Forall₂ (fun kid (e : Explained) => ∀ i ∈ e.visited, i ∈ kid.indices) kids es) :
    ∀ i ∈ es.flatMap Explained.visited, i ∈ kids.flatMap Node.indices := by
  intro i hi
  obtain ⟨e, he, hi⟩ := List.mem_flatMap.mp hi
  obtain ⟨kid, hk, hke⟩ := Lists.exists_of_forall₂ h he
  exact List.mem_flatMap.mpr ⟨kid, hk, hke i hi⟩

/-- Among branches in different slots, those visited below a branch were visited for it. -/
theorem visited_of_mem {es : List Explained}
    (h : List.Forall₂ (fun kid (e : Explained) => ∀ i ∈ e.visited, i ∈ kid.indices) kids es)
    (hd : (kids.flatMap Node.indices).Nodup) :
    List.Forall₂ (fun kid (e : Explained) =>
      ∀ i ∈ kid.indices, i ∈ es.flatMap Explained.visited → i ∈ e.visited) kids es := by
  induction h with
  | nil => exact .nil
  | @cons kid e kids es hke hall ih =>
    rw [List.flatMap_cons, List.nodup_append] at hd
    refine .cons (fun i hi hv => ?_) ?_
    · rw [List.flatMap_cons, List.mem_append] at hv
      exact hv.resolve_right fun hv => hd.2.2 i hi i (visited_subset hall i hv) rfl
    · have hne : ∀ kid' ∈ kids, ∀ i ∈ kid'.indices, i ∉ e.visited := by
        intro kid' hk' i hi hv
        exact hd.2.2 i (hke i hv) i (List.mem_flatMap.mpr ⟨kid', hk', hi⟩) rfl
      refine ((List.forall₂_and_left _ _).mpr ⟨hne, ih hd.2.1⟩).imp fun kid' e' hk' i hi hv => ?_
      rw [List.flatMap_cons, List.mem_append] at hv
      exact hk'.2 i hi (hv.resolve_left (hk'.1 i hi))

theorem passed_kids (es : List Explained) (L : LinkSet)
    (hd : (Node.mk c kids).indices.Nodup)
    (h : List.Forall₂ (fun kid (e : Explained) => e.node.map Cell.unlinked = kid.map Cell.unlinked ∧
      ∀ i ∈ e.visited, i ∈ kid.indices) kids es) :
    let e := s.explained c (es.map Explained.node) L (es.flatMap Explained.visited)
    e.node.map Cell.unlinked = (Node.mk c kids).map Cell.unlinked ∧
      (∀ i ∈ e.visited, i ∈ (Node.mk c kids).indices) ∧
      List.Forall₂ (fun _ (e' : Explained) =>
        ∀ i ∈ e'.node.indices, i ∈ e.visited → i ∈ e'.visited) kids es := by
  rw [Node.indices_mk, List.nodup_cons] at hd
  have hv := h.imp fun _ _ h => h.2
  refine ⟨?_, fun i hi => ?_, ?_⟩
  · rw [explained, Node.map_mk, Node.map_mk, List.map_map]
    exact congrArg _ (Lists.map_eq_of_forall₂ h fun _ _ h => h.1.symm).symm
  · rw [Node.indices_mk, List.mem_cons]
    unfold explained at hi
    split_ifs at hi
    · exact (List.mem_cons.mp hi).imp_right (visited_subset hv i)
    · exact .inr (visited_subset hv i hi)
  · have hmem := visited_of_mem hv hd.2
    have hself : ∀ kid ∈ kids, ∀ i ∈ kid.indices, i ≠ c.index := by
      rintro kid hk i hi rfl
      exact hd.1 (List.mem_flatMap.mpr ⟨kid, hk, hi⟩)
    refine List.Forall₂.mp (fun _ e' h₁ h₂ i hi hv => ?_) h
      ((List.forall₂_and_left _ _).mpr ⟨hself, hmem⟩)
    have hi' := hi
    rw [Node.indices_eq_of_map (g := Cell.unlinked) (fun _ => rfl) h₁.1] at hi'
    unfold explained at hv
    split_ifs at hv
    · exact h₂.2 i hi' ((List.mem_cons.mp hv).resolve_left (h₂.1 i hi'))
    · exact h₂.2 i hi' hv

/-! ## Links taken over -/

/-- The nodes whose links are up to date, given the slots that were substantial before. -/
def Trusts (s : Setting) (was : Nat → Bool) (i : Nat) : Prop :=
  (!s.minimalLinks || was i) = true

/-- Links that are trusted are taken over where the cycle does not affect the formula. -/
theorem takenOver_explains {was : Nat → Bool} {L : LinkSet}
    (hc : f.Every (Formula.Carried s.registry P s.focus (s.Trusts was)) n)
    (hL : (if !s.focus.affects f && (!s.minimalLinks || was n.index) then n.cell.links else none) =
      some L) : s.Explains P f n (s.takenOver n L) := by
  split_ifs at hL with ha
  rw [Bool.and_eq_true, Bool.not_eq_true'] at ha
  have hcached := hc.cached_of_carried ha.1
  refine ⟨⟨rfl, fun i hi => ?_, ?_⟩, hcached.root ha.2 L hL, hL⟩
  · unfold takenOver at hi
    split_ifs at hi
    · rw [List.mem_singleton.mp hi]
      exact n.index_mem_indices
    · cases hi
  · refine hcached.cached_mono fun i _ hi => ?_
    unfold takenOver at hi
    cases hm : s.minimalLinks with
    | false => exact congrArg (! · || was i) hm
    | true =>
      simp only [hm, if_true, forall_const] at hi
      obtain rfl := List.mem_singleton.mp hi
      exact ha.2

/-- Either the links of a node are taken over, or they are found in some other way. -/
theorem explains_takeOver {was : Nat → Bool} {x : Eval Explained}
    (hc : f.Every (Formula.Carried s.registry P s.focus (s.Trusts was)) n)
    (h : ∃ e, x.Yields e ∧ s.Explains P f n e) :
    ∃ e, Eval.Yields
      (match if !s.focus.affects f && (!s.minimalLinks || was n.index) then n.cell.links else none with
        | some links => return s.takenOver n links
        | none => x) e ∧ s.Explains P f n e := by
  cases hL : (if !s.focus.affects f && (!s.minimalLinks || was n.index) then n.cell.links else none) with
  | some L => exact ⟨_, Eval.yields_pure _, takenOver_explains hc hL⟩
  | none => exact h

/-! ## Quantifiers -/

theorem judge_ok {r : Registry} {q : Quantifier} {look : List Node}
    (hf : ∀ kid ∈ look, body.Every (Formula.Found r P) kid) :
    judge q look = .ok (look.map fun kid =>
      (body.holds r P kid.cell.env == q.kind.witnessTruth, kid)) := by
  unfold judge
  refine Formula.mapM_ok fun kid hk => ?_
  rw [Cell.stagedTruth, (hf kid hk).root.1, Truth.toBool?_ofBool]
  rfl

theorem collectLinks_ok {q : Quantifier} {results : List (Bool × Explained)} :
    ∀ links : LinkSet, (∀ x ∈ results, x.2.node.cell.bound.isSome = true) →
    ∃ L, collectLinks q links results = .ok L ∧ ∀ l, l ∈ L ↔ l ∈ links ∨
      ∃ x ∈ results, x.1 = true ∧
        l ∈ x.2.links.withBinding q.kind.linkKind q.var (x.2.node.cell.bound.getD 0) := by
  induction results with
  | nil => exact fun _ _ => ⟨_, rfl, fun l => by simp⟩
  | cons x results ih =>
    intro links h
    rw [List.forall_mem_cons] at h
    obtain ⟨witness, e⟩ := x
    obtain ⟨id, hid⟩ := Option.isSome_iff_exists.mp h.1
    have hb : branchLinks q e = .ok (e.links.withBinding q.kind.linkKind q.var id) := by
      have : boundOf e.node = .ok id := by
        rw [boundOf, show e.node.cell.bound = some id from hid]
      rw [branchLinks, this]
      rfl
    cases witness with
    | true =>
      obtain ⟨L, hL, hm⟩ := ih (links ∪ _) h.2
      refine ⟨L, ?_, fun l => ?_⟩
      · rw [collectLinks, if_pos rfl, hb]
        exact hL
      · rw [hm, ExtTreeSet.mem_union_iff, List.exists_mem_cons_iff, or_assoc]
        simp only [true_and, show e.node.cell.bound = some id from hid, Option.getD_some]
    | false =>
      obtain ⟨L, hL, hm⟩ := ih links h.2
      refine ⟨L, ?_, fun l => ?_⟩
      · rw [collectLinks, if_neg Bool.false_ne_true]
        exact hL
      · rw [hm, List.exists_mem_cons_iff]
        simp only [Bool.false_eq_true, false_and, false_or]

/-- A branch that was looked at, with whether it is a witness: then it has its links. -/
structure Looked (s : Setting) (P : Pools) (q : Quantifier) (body : Formula) (kid : Node)
    (x : Bool × Explained) : Prop where
  witness : x.1 = true ↔ body.holds s.registry P kid.cell.env = q.kind.witnessTruth
  passed : s.Passed P body kid x.2
  explains : x.1 = true → s.Explains P body kid x.2

section Quantifier

variable {i : Nat} {q : Quantifier} {before look : List Node} {results : List (Bool × Explained)}

theorem gathers_of_looked (h : List.Forall₂ (s.Looked P q body) look results) {l : Link} :
    (∃ x ∈ results, x.1 = true ∧
      l ∈ x.2.links.withBinding q.kind.linkKind q.var (x.2.node.cell.bound.getD 0)) ↔
      Formula.Gathers s.registry P q body look l := by
  constructor
  · rintro ⟨x, hx, hw, hl⟩
    obtain ⟨kid, hk, hlooked⟩ := Lists.exists_of_forall₂ h hx
    rw [(hlooked.explains hw).links, hlooked.passed.bound] at hl
    exact ⟨kid, hk, hlooked.witness.mp hw, hl⟩
  · rintro ⟨kid, hk, ht, hl⟩
    obtain ⟨x, hx, hlooked⟩ := Lists.exists_of_forall₂ h.flip hk
    have hw := hlooked.witness.mpr ht
    refine ⟨x, hx, hw, ?_⟩
    rwa [(hlooked.explains hw).links, hlooked.passed.bound]

/-- The explanation of a quantifier, where the links of some branches are known before and the others
were looked at. -/
theorem explains_quantified {L : LinkSet} (hd : (Node.mk c kids).indices.Nodup)
    (hpl : (kids.map Node.place).Perm (q.places P c.env)) (hkids : before ++ look = kids)
    (hbefore : ∀ kid ∈ before, s.Passed P body kid ⟨∅, kid, []⟩)
    (hlook : List.Forall₂ (s.Looked P q body) look results)
    (hL : ∀ l, l ∈ L ↔ Formula.Gathers s.registry P q body kids l) :
    s.Explains P (.quantified i q body) (.mk c kids) (s.explained c
      (before ++ results.map fun x => x.2.node) L (results.flatMap fun x => x.2.visited)) := by
  have hl : L = (Formula.quantified i q body).links s.registry P c.env := by
    refine ExtTreeSet.ext_mem fun l => ?_
    rw [hL, Formula.mem_links_of_places hpl]
    rfl
  -- the branches with what the traversal made of them
  let es : List Explained := before.map (⟨∅, ·, []⟩) ++ results.map Prod.snd
  have hes : List.Forall₂ (s.Passed P body) kids es := by
    rw [← hkids]
    refine List.rel_append ?_ ?_
    · rw [List.forall₂_map_right_iff]
      exact List.forall₂_same.mpr hbefore
    · rw [List.forall₂_map_right_iff]
      exact hlook.imp fun _ _ h => h.passed
  have hnodes : es.map Explained.node = before ++ results.map fun x => x.2.node := by
    rw [List.map_append, List.map_map, List.map_map]
    exact congrArg (· ++ _) (List.map_id _)
  have hvisited : es.flatMap Explained.visited = results.flatMap fun x => x.2.visited := by
    rw [List.flatMap_append, List.flatMap_map, List.flatMap_map]
    simp
  obtain ⟨hu, hv, hin⟩ := passed_kids (s := s) es L hd
    (hes.imp fun _ _ h => ⟨h.unlinked, h.visited⟩)
  rw [hnodes, hvisited] at hu hv hin
  refine ⟨⟨hu, hv, ⟨fun _ L' hL' => ?_, fun kid' hk' => ?_⟩⟩, hl, rfl⟩
  · cases hL'
    exact hl
  · rw [← hnodes] at hk'
    obtain ⟨e, he, rfl⟩ := List.mem_map.mp hk'
    obtain ⟨kid, -, h⟩ := Lists.exists_of_forall₂ (Lists.forall₂_and hes hin) he
    exact h.1.cached.cached_mono fun i hi ht hm => h.2 i hi (ht hm)

/-- A quantifier is explained by looking at its branches, but for those whose links are known. -/
theorem explain_branches {visit : Bool × Node → Eval (Bool × Explained)} (links₀ : LinkSet)
    (before look : List Node) (concurrent : List (Bool × Node) → Bool)
    (hd : (Node.mk c kids).indices.Nodup)
    (hpl : (kids.map Node.place).Perm (q.places P c.env)) (hkids : before ++ look = kids)
    (hf : ∀ kid ∈ kids, body.Every (Formula.Found s.registry P) kid)
    (hbefore : ∀ kid ∈ before, s.Passed P body kid ⟨∅, kid, []⟩)
    (hlinks : ∀ l, l ∈ links₀ ↔ Formula.Gathers s.registry P q body before l)
    (hvisit : ∀ kid ∈ kids, ∀ w, ∃ e, (visit (w, kid)).Yields (w, e) ∧ s.Passed P body kid e ∧
      (w = true → s.Explains P body kid e)) :
    ∃ e, Eval.Yields
      (do
        let judged ← Routine.ofExcept (judge q look)
        let results ← Eval.forEach (concurrent judged) visit judged
        let all ← Routine.ofExcept (collectLinks q links₀ results)
        return s.explained c (before ++ results.map fun r => r.2.node) all
          (results.flatMap fun r => r.2.visited)) e ∧
      s.Explains P (.quantified i q body) (.mk c kids) e := by
  have hmem : ∀ kid ∈ look, kid ∈ kids := fun kid hk => hkids ▸ List.mem_append_right _ hk
  let w (kid : Node) : Bool := body.holds s.registry P kid.cell.env == q.kind.witnessTruth
  obtain ⟨results, hres⟩ : ∃ results, List.Forall₂ (fun kid (x : Bool × Explained) =>
      (visit (w kid, kid)).Yields x ∧ s.Looked P q body kid x) look results := by
    refine Lists.exists_forall₂ fun kid hk => ?_
    obtain ⟨e, hy, hp, he⟩ := hvisit kid (hmem kid hk) (w kid)
    exact ⟨(w kid, e), hy, beq_iff_eq, hp, he⟩
  have hlook : List.Forall₂ (s.Looked P q body) look results := hres.imp fun _ _ h => h.2
  have hsome : ∀ x ∈ results, x.2.node.cell.bound.isSome = true := by
    intro x hx
    obtain ⟨kid, hk, h⟩ := Lists.exists_of_forall₂ hlook hx
    rw [h.passed.bound]
    exact isSome_of_places hpl kid (hmem kid hk)
  obtain ⟨L, hcol, hL⟩ := collectLinks_ok (q := q) links₀ hsome
  have hvisits : (Eval.forEach (concurrent (look.map fun kid => (w kid, kid))) visit
      (look.map fun kid => (w kid, kid))).Yields results := by
    refine Eval.yields_forEach _ ?_
    rw [List.forall₂_map_left_iff]
    exact hres.imp fun _ _ h => h.1
  refine ⟨_, (Eval.yields_ofExcept (judge_ok fun kid hk => hf kid (hmem kid hk))).bind
    (hvisits.bind ((Eval.yields_ofExcept hcol).bind (Eval.yields_pure _))), ?_⟩
  refine explains_quantified hd hpl hkids hbefore hlook fun l => ?_
  rw [hL, hlinks, gathers_of_looked hlook, ← hkids, Formula.gathers_append]

/-- The links that a quantifier keeps are those of the branches that stayed, which are passed over. -/
theorem keptLinks_ok {was : Nat → Bool} {L : LinkSet}
    (hc : (Formula.quantified i q body).Every
      (Formula.Carried s.registry P s.focus (s.Trusts was)) (.mk c kids))
    (hkept : (if s.focus.affects (.quantified i q body) then
      s.keptLinks body c (!s.minimalLinks || was c.index) else none) = some L) :
    (∀ kid ∈ (Node.mk c kids).oldKids, s.Passed P body kid ⟨∅, kid, []⟩) ∧
      ∀ l, l ∈ L ↔ Formula.Gathers s.registry P q body (Node.mk c kids).oldKids l := by
  split_ifs at hkept with ha
  unfold keptLinks at hkept
  split_ifs at hkept with hk
  rw [Bool.and_eq_true, Bool.and_eq_true, Bool.not_eq_true', Bool.not_eq_true'] at hk
  refine ⟨fun kid hkid => ?_, ?_⟩
  · refine passed_over (hc.2 kid (Node.mem_kids_of_mem_oldKids hkid)) fun hm => ?_
    exact ⟨hk.1.1, fun j => congrArg (! · || was j) hm⟩
  · have hcarried := hc.1 hk.2 L hkept
    rw [if_pos ha] at hcarried
    exact hcarried hk.1.1 hk.1.2

end Quantifier

/-! ## Connectives -/

/-- The links of a connective depend on those of the operands that feed it. -/
theorem explain_congr (op : Connective) {t a b : Bool} {l l' m m' : LinkSet}
    (hl : (op.feeds t a b).1 = true → l = l') (hm : (op.feeds t a b).2 = true → m = m') :
    op.explain t a b l m = op.explain t a b l' m' := by
  unfold Connective.explain
  unfold Connective.feeds at hl hm
  by_cases h : op.needsBoth t = true
  · rw [if_pos h] at hl hm
    rw [if_pos h, if_pos h, hl rfl, hm rfl]
  · rw [if_neg h] at hl hm
    rw [if_neg h, if_neg h]
    simp only
    refine congrArg₂ (· ∪ ·) ?_ ?_
    · by_cases h₁ : (op.sufficient a b).1 = true
      · rw [hl h₁]
      · rw [if_neg h₁, if_neg h₁]
    · by_cases h₂ : (op.sufficient a b).2 = true
      · rw [hm h₂]
      · rw [if_neg h₂, if_neg h₂]

section Connective

variable {op : Connective} {i : Nat} {left right : Formula} {a b : Node} {x y : Explained}

/-- The explanation of a connective from those of the operands that feed it. -/
theorem explains_binary (hd : (Node.mk c [a, b]).indices.Nodup)
    (hp : (Formula.binary i op left right).Placed P c [a, b])
    (hpx : s.Passed P left a x) (hpy : s.Passed P right b y)
    (hwx : (op.feeds ((Formula.binary i op left right).holds s.registry P c.env)
      (left.holds s.registry P c.env) (right.holds s.registry P c.env)).1 = true →
        s.Explains P left a x)
    (hwy : (op.feeds ((Formula.binary i op left right).holds s.registry P c.env)
      (left.holds s.registry P c.env) (right.holds s.registry P c.env)).2 = true →
        s.Explains P right b y) :
    s.Explains P (.binary i op left right) (.mk c [a, b]) (s.explained c [x.node, y.node]
      (op.explain ((Formula.binary i op left right).holds s.registry P c.env)
        (left.holds s.registry P c.env) (right.holds s.registry P c.env) x.links y.links)
      (x.visited ++ y.visited)) := by
  obtain ⟨hu, hv, hin⟩ := passed_kids (s := s) (c := c) [x, y]
    (op.explain ((Formula.binary i op left right).holds s.registry P c.env)
      (left.holds s.registry P c.env) (right.holds s.registry P c.env) x.links y.links) hd
    (.cons ⟨hpx.unlinked, hpx.visited⟩ (.cons ⟨hpy.unlinked, hpy.visited⟩ .nil))
  simp only [List.map_cons, List.map_nil, List.flatMap_cons, List.flatMap_nil,
    List.append_nil] at hu hv hin
  have hl := explain_congr op (fun h => (hwx h).links.trans (by rw [hp.left_env]))
    (fun h => (hwy h).links.trans (by rw [hp.right_env]))
  obtain ⟨hinx, hiny⟩ := List.forall₂_cons.mp hin
  refine ⟨⟨hu, hv, ⟨fun _ L' hL' => ?_, _, _, rfl, ?_, ?_⟩⟩, hl, rfl⟩
  · cases hL'
    exact hl
  · exact hpx.cached.cached_mono fun j hj htj hm => hinx j hj (htj hm)
  · exact hpy.cached.cached_mono fun j hj htj hm => (List.forall₂_cons.mp hiny).1 j hj (htj hm)

theorem explains_negation (hd : (Node.mk c [a]).indices.Nodup)
    (hp : (Formula.negation i body).Placed P c [a]) (hx : s.Explains P body a x) :
    s.Explains P (.negation i body) (.mk c [a])
      (s.explained c [x.node] x.links.flipped x.visited) := by
  obtain ⟨hu, hv, hin⟩ := passed_kids (s := s) (c := c) [x] x.links.flipped hd
    (.cons ⟨hx.unlinked, hx.visited⟩ .nil)
  simp only [List.map_cons, List.map_nil, List.flatMap_cons, List.flatMap_nil,
    List.append_nil] at hu hv hin
  have hl : x.links.flipped = (Formula.negation i body).links s.registry P c.env := by
    rw [hx.links, hp.operand_env]
    rfl
  refine ⟨⟨hu, hv, ⟨fun _ L' hL' => ?_, _, rfl, ?_⟩⟩, hl, rfl⟩
  · cases hL'
    exact hl
  · exact hx.cached.cached_mono fun j hj htj hm => (List.forall₂_cons.mp hin).1 j hj (htj hm)

theorem explains_application {p : Application} (hd : (Node.mk c []).indices.Nodup) :
    s.Explains P (.application i p) (.mk c []) (s.explained c [] ∅ []) := by
  obtain ⟨hu, hv, -⟩ := passed_kids (s := s) (c := c) [] ∅ hd .nil
  refine ⟨⟨hu, hv, ⟨fun _ L' hL' => ?_, rfl⟩⟩, rfl, rfl⟩
  cases hL'
  rfl

end Connective

/-! ## All formulas -/

theorem exists_visit {was : Nat → Bool} {w : Bool} {kid : Node}
    (hc : f.Every (Formula.Carried s.registry P s.focus (s.Trusts was)) kid)
    (ih : ∃ e, (s.explain was f kid).Yields e ∧ s.Explains P f kid e) :
    ∃ e, Eval.Yields (if w || !s.minimalLinks then s.explain was f kid else pure ⟨∅, kid, []⟩) e ∧
      s.Passed P f kid e ∧ (w = true → s.Explains P f kid e) := by
  by_cases hw : (w || !s.minimalLinks) = true
  · obtain ⟨e, hy, he⟩ := ih
    rw [if_pos hw]
    exact ⟨e, hy, he.toPassed, fun _ => he⟩
  · rw [if_neg hw]
    simp only [Bool.or_eq_true, Bool.not_eq_true', not_or, Bool.not_eq_true,
      Bool.not_eq_false] at hw
    refine ⟨_, Eval.yields_pure _, passed_over hc fun h => ?_, fun h => ?_⟩
    · rw [hw.2] at h
      cases h
    · rw [hw.1] at h
      cases h

theorem exists_visitBranch {was : Nat → Bool} {kid : Node}
    (hc : body.Every (Formula.Carried s.registry P s.focus (s.Trusts was)) kid)
    (ih : ∃ e, (s.explain was body kid).Yields e ∧ s.Explains P body kid e) (w : Bool) :
    ∃ e, Eval.Yields (if w || !s.minimalLinks then do return (w, ← s.explain was body kid)
        else return (w, ⟨∅, kid, []⟩)) (w, e) ∧
      s.Passed P body kid e ∧ (w = true → s.Explains P body kid e) := by
  obtain ⟨e, hy, he⟩ := exists_visit (w := w) hc ih
  refine ⟨e, ?_, he⟩
  split_ifs at hy ⊢
  · exact hy.map (Prod.mk w)
  · exact hy.map (Prod.mk w)

/-- **The links of an instance**, found again only where it is necessary. -/
theorem explain_yields {was : Nat → Bool} : ∀ {n : Node},
    f.Every (Formula.Placed P) n → f.Every (Formula.Found s.registry P) n →
    f.Every (Formula.Carried s.registry P s.focus (s.Trusts was)) n → n.indices.Nodup →
    ∃ e, (s.explain was f n).Yields e ∧ s.Explains P f n e := by
  induction f with
  | quantified i q body ih =>
    rintro ⟨c, kids⟩ hp hf hc hd
    have hpl : (kids.map Node.place).Perm (q.places P c.env) := hp.1.2
    have hvisit (kid : Node) (hk : kid ∈ kids) := exists_visitBranch (hc.2 kid hk)
      (ih (hp.2 kid hk) (hf.2 kid hk) (hc.2 kid hk) (Node.nodup_indices_kid hd hk))
    unfold explain
    refine explains_takeOver hc ?_
    cases hkept : (if s.focus.affects (.quantified i q body) then
      s.keptLinks body c (!s.minimalLinks || was c.index) else none) with
    | none =>
      exact explain_branches ∅ [] kids _ hd hpl rfl hf.2 nofun
        (fun l => by simp [Formula.Gathers]) hvisit
    | some links₀ =>
      obtain ⟨hbefore, hlinks⟩ := keptLinks_ok hc hkept
      exact explain_branches links₀ _ _ _ hd hpl (Node.mk c kids).oldKids_append_freshKids hf.2
        hbefore hlinks hvisit
  | binary i op left right ihl ihr =>
    rintro ⟨c, kids⟩ hp hf hc hd
    unfold explain
    refine explains_takeOver hc ?_
    obtain ⟨hpl, a, b, rfl, hpa, hpb⟩ := hp
    obtain ⟨hroot, hfa, hfb⟩ := Formula.every_binary.mp hf
    obtain ⟨-, hca, hcb⟩ := Formula.every_binary.mp hc
    have hta : a.cell.stagedTruth = .ok (left.holds s.registry P c.env) := by
      rw [Cell.stagedTruth, hfa.root.1, Truth.toBool?_ofBool, hpl.left_env]
    have htb : b.cell.stagedTruth = .ok (right.holds s.registry P c.env) := by
      rw [Cell.stagedTruth, hfb.root.1, Truth.toBool?_ofBool, hpl.right_env]
    have ht : c.stagedTruth =
        .ok ((Formula.binary i op left right).holds s.registry P c.env) := by
      rw [Cell.stagedTruth, hroot.1, Truth.toBool?_ofBool]
    obtain ⟨x, hx, hpx, hwx⟩ := exists_visit (w := _) hca
      (ihl hpa hfa hca (Node.nodup_indices_kid hd (by simp)))
    obtain ⟨y, hy, hpy, hwy⟩ := exists_visit (w := _) hcb
      (ihr hpb hfb hcb (Node.nodup_indices_kid hd (by simp)))
    exact ⟨_, (Eval.yields_ofExcept hta).bind ((Eval.yields_ofExcept htb).bind
      ((Eval.yields_ofExcept ht).bind (hx.ite_bind (hy.ite_bind (Eval.yields_pure _))))),
      explains_binary hd hpl hpx hpy hwx hwy⟩
  | negation i body ih =>
    rintro ⟨c, kids⟩ hp hf hc hd
    unfold explain
    refine explains_takeOver hc ?_
    obtain ⟨hpl, a, rfl, hpa⟩ := hp
    obtain ⟨-, hfa⟩ := Formula.every_negation.mp hf
    obtain ⟨-, hca⟩ := Formula.every_negation.mp hc
    obtain ⟨x, hx, hxa⟩ := ih hpa hfa hca (Node.nodup_indices_kid hd (by simp))
    exact ⟨_, hx.bind (Eval.yields_pure _), explains_negation hd hpl hxa⟩
  | application i a =>
    rintro ⟨c, kids⟩ hp - hc hd
    unfold explain
    refine explains_takeOver hc ?_
    obtain ⟨-, rfl⟩ := hp
    exact ⟨_, Eval.yields_pure _, explains_application hd⟩

end Setting

end RuleMonitor
