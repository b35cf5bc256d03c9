import RuleMonitor.Proofs.Kinds
import RuleMonitor.Proofs.Rules.Explaining

/-!
# What witnesses cover

As long as nothing failed, the links of every node of a rule are of the kind of its truth, whether they
are found from scratch or from those that are kept. So the witnesses of a rule that is false all
violate it, none of them binds more than another one, and there is one within every link of the root.
A rule that is a universal quantifier is told of all contexts that falsify it.

* `Rule.Explains`: the links that explaining a node finds.
* **`Tree.Right.explains`**: they are the links of the formula that the node stands for.
* `Rule.Witnessed`: what the witnesses of a rule that is false are.
* **`Checker.witnesses_cover`**: the links and the witnesses in the states that operations without
  failures lead to.
-/

namespace RuleMonitor

open Std (ExtTreeMap ExtTreeSet)

namespace Rule

/-- Explaining a node that stands for a formula finds the links, from scratch and from the links that
are kept. -/
def Explains (engine : Engine) (r : Rule) (g : Formula) (m : Node) (L : LinkSet) : Prop :=
  ∀ concurrent : List Nat,
    (∀ was, ∃ e, ((r.setting engine .everything concurrent).explain was g m).Yields e ∧
      e.links = L) ∧
    ∃ e, ((r.setting engine .nothing concurrent).explain r.tree.substantial.contains g m).Yields e ∧
      e.links = L

/-- The witnesses of a rule that is false, with the root of its instantiation. -/
structure Witnessed (engine : Engine) (r : Rule) (n : Node) : Prop where
  violated : ∀ w ∈ r.status.witnesses, w.kind = .violated
  incomparable : ∀ w ∈ r.status.witnesses, ∀ w' ∈ r.status.witnesses, w'.Within w → w' = w
  covers : ∃ L, n.cell.links = some L ∧ r.Explains engine r.sentence.formula n L ∧
    ∀ l ∈ L, ∃ w ∈ r.status.witnesses, w.Within l
  contexts : ∀ i q body, r.sentence.formula = .quantified i q body → q.kind = .universal →
    ∀ id, (∃ w ∈ r.status.witnesses, w.bindings[q.var]? = some id) ↔
      ∃ kid ∈ n.kids, kid.cell.bound = some id ∧ kid.cell.truth = .no

end Rule

/-! ## The links of nodes -/

namespace Formula

variable {r : Registry} {P : Pools} {f : Formula} {n : Node} {trusted : Nat → Prop}

/-- If everything is affected, nothing is known of the links that are kept. -/
theorem Every.carried_everything {p : Formula → Cell → List Node → Prop} (h : f.Every p n) :
    f.Every (Carried r P .everything trusted) n := by
  refine h.imp fun g _ m _ _ _ L _ => ?_
  rw [if_pos (show Focus.everything.affects g = true from rfl)]
  cases g with
  | quantified i q body => exact fun ha => nomatch ha
  | binary i op left right | negation i body | application i a => exact trivial

theorem Every.carried_nothing (h : f.Every (Cached r P trusted) n) :
    f.Every (Carried r P .nothing trusted) n := by
  refine h.imp fun g _ m _ hc ht L hL => ?_
  have ha : Focus.nothing.affects g = false := by
    rw [← Bool.not_eq_true]
    exact fun ha => nomatch (ranges_iff.mp ha)
  rw [ha, if_neg Bool.false_ne_true]
  exact hc ht L hL

end Formula

variable {engine : Engine} {P : Pools} {f : Formula} {t : Tree} {n : Node}

/-- Explaining an instance with truths finds the links of the formula. -/
theorem Rule.explains_of_every {r : Rule} (hp : f.Every (Formula.Placed P) n)
    (hf : f.Every (Formula.Found engine.registry P) n)
    (hc : f.Every (Formula.Cached engine.registry P (r.tree.Trusted engine.minimalLinks)) n)
    (hd : n.indices.Nodup) : r.Explains engine f n (f.links engine.registry P n.cell.env) := by
  intro concurrent
  constructor
  · intro was
    let s := r.setting engine .everything concurrent
    obtain ⟨e, hy, he⟩ : ∃ e, (s.explain was f n).Yields e ∧ s.Explains P f n e :=
      Setting.explain_yields hp hf hp.carried_everything hd
    exact ⟨e, hy, he.links⟩
  · let s := r.setting engine .nothing concurrent
    have hcarried : f.Every (Formula.Carried engine.registry P .nothing
        (s.Trusts r.tree.substantial.contains)) n := by
      refine (hc.cached_mono fun i _ ht hmin => ?_).carried_nothing
      have ht : (!engine.minimalLinks || r.tree.substantial.contains i) = true := ht
      rwa [hmin] at ht
    obtain ⟨e, hy, he⟩ := Setting.explain_yields (s := s) hp hf hcarried hd
    exact ⟨e, hy, he.links⟩

/-- **The links of the nodes** of an instantiation that is right are those of the formulas that the nodes
stand for. -/
theorem Tree.Right.explains {r : Rule} (h : r.tree.Right engine P f n) {m : Node}
    (hm : m ∈ n.subtrees) : ∃ g ∈ f.subformulas, m.cell.formula = g.index ∧
      m.cell.staged = .ofBool (g.holds engine.registry P m.cell.env) ∧
      r.Explains engine g m (g.links engine.registry P m.cell.env) := by
  obtain ⟨g, hg, hp, hf, hc⟩ :=
    (h.placed.trees.and (h.found.trees.and h.cached.trees)).exists_of_mem m hm
  have hd := Node.nodup_indices_of_mem h.owns.nodup hm
  obtain ⟨c, kids⟩ := m
  exact ⟨g, hg, hp.root.1, hf.root.1, Rule.explains_of_every hp hf hc hd⟩

namespace Rule

variable {r : Rule}

theorem Sound.truth_eq (h : r.Sound engine) (hn : r.tree.Right engine r.facts.pools r.sentence.formula n)
    (hcalm : n.Calm) : r.status.truth = n.cell.truth := by
  rw [h.status, ← statusOf_eq hn hcalm]
  rfl

/-- **The witnesses of a sound rule that is false.** -/
theorem Sound.witnessed (h : r.Sound engine) (hn : r.tree.Right engine r.facts.pools r.sentence.formula n)
    (hcalm : n.Calm) (hno : r.status.truth = .no) : r.Witnessed engine n := by
  have hfalse : r.sentence.formula.holds engine.registry r.facts.pools ∅ = false := by
    rw [h.status] at hno
    exact Truth.eq_false_of_ofBool hno
  let L := r.sentence.formula.links engine.registry r.facts.pools ∅
  have hkind : L.OfKind .violated := by
    have hk : L.OfKind (.ofTruth (r.sentence.formula.holds engine.registry r.facts.pools ∅)) :=
      Formula.links_ofKind
    rwa [hfalse] at hk
  have hw : r.status.witnesses = L.minimal := by
    rw [h.status]
    unfold Formula.status
    rw [hfalse]
    rfl
  constructor
  · rw [hw]
    exact fun w hmem => hkind w (LinkSet.mem_of_mem_minimal hmem)
  · rw [hw]
    exact fun w hmem w' hmem' hwithin => LinkSet.eq_of_within_minimal hkind hmem hmem' hwithin
  · refine ⟨L, hn.links (.inr hfalse), ?_, fun l hl => ?_⟩
    · have hroot := explains_of_every (r := r) hn.placed hn.found hn.cached hn.owns.nodup
      rwa [hn.env] at hroot
    · rw [hw]
      exact LinkSet.exists_minimal_within hl
  · rw [hw]
    rintro i q body hform huniversal id
    have hplaced := hn.placed
    have hfound := hn.found
    rw [hform] at hplaced hfound
    obtain ⟨c, kids⟩ := n
    have hpl : (kids.map Node.place).Perm (q.places r.facts.pools c.env) := hplaced.1.2
    have henv : c.env = ∅ := hn.env
    have htruth : ∀ kid ∈ kids, kid.cell.truth = .ofBool (body.holds engine.registry r.facts.pools
        kid.cell.env) := fun kid hk =>
      ((hfound.2 kid hk).root.2.1 (hcalm.kid hk _ (Node.cell_mem_cells _))).trans
        (hfound.2 kid hk).root.1
    have hwitness : q.kind.witnessTruth = false := by
      rw [huniversal]
      rfl
    change (∃ w ∈ (r.sentence.formula.links engine.registry r.facts.pools ∅).minimal, _) ↔ _
    rw [hform, Formula.exists_minimal_binding_iff, hwitness]
    constructor
    · rintro ⟨x, hx, rfl, hx'⟩
      obtain ⟨kid, hk, hb, he⟩ := Formula.exists_kid_of_places hpl (henv ▸ hx)
      refine ⟨kid, hk, hb, ?_⟩
      rw [htruth kid hk, he, henv, hx']
      rfl
    · rintro ⟨kid, hk, hb, hno'⟩
      obtain ⟨x, hx, hb', he⟩ := Formula.exists_of_places hpl hk
      rw [htruth kid hk, he, henv] at hno'
      exact ⟨x, henv ▸ hx, Option.some.inj (hb'.symm.trans hb), Truth.eq_false_of_ofBool hno'⟩

end Rule

namespace Checker

variable {c : Checker} {s : Sentence} {reg : Registry}

/-- **Links and witnesses.** After operations without failures, the links of every node are of the kind
of its truth. A rule that is false has witnesses that all violate it, none of which binds more than
another one, and one of them is within every link of the root; if the rule is a universal quantifier,
they bind its variable to exactly the contexts with a branch that is false. A rule that is true has no
witnesses. -/
theorem witnesses_cover {d : Draft} {root : Nat} (hs : d.build root = .ok s) (h : Arrives reg s c) :
    ∃ r n, c.rules[s.rule]? = some r ∧ r.sentence = s ∧ r.tree.root = some n ∧
      (∀ m ∈ n.subtrees, ∃ g b L, s.formula.at? m.cell.formula = some g ∧
        m.cell.truth = .ofBool b ∧ r.Explains c.engine g m L ∧ L.OfKind (.ofTruth b)) ∧
      r.status.truth = n.cell.truth ∧
      (r.status.truth = .no → r.Witnessed c.engine n) ∧
      (r.status.truth = .yes → r.status.witnesses = []) := by
  have hw := Sentence.wellFormed_of_build hs
  obtain ⟨rfl, r, hr, hsound, rfl⟩ := h.sound hw
  obtain ⟨n, hn, hcalm⟩ := hsound.tree
  refine ⟨r, n, hr, rfl, hn.root, fun m hm => ?_, hsound.truth_eq hn hcalm,
    hsound.witnessed hn hcalm, fun hyes => ?_⟩
  · obtain ⟨g, hg, hformula, hstaged, hexplains⟩ := hn.explains hm
    have htruth : m.cell.truth = m.cell.staged := by
      obtain ⟨g', -, hf⟩ := hn.found.exists_of_mem m hm
      exact hf.2.1 (hcalm m.cell (Node.cell_mem_cells_of_mem hm))
    refine ⟨g, _, _, ?_, htruth.trans hstaged, hexplains, Formula.links_ofKind⟩
    rw [hformula]
    exact hw.at?_of_mem hg
  · rw [hsound.status] at hyes ⊢
    unfold Formula.status at hyes ⊢
    cases hb : r.sentence.formula.holds c.engine.registry r.facts.pools ∅ with
    | true => rfl
    | false =>
      rw [hb] at hyes
      cases hyes

end Checker

/-! ## A sample -/

namespace Sample

/-- The first and the last of three sensors are not calm. -/
def readings : List Change :=
  [change .addition 0 "1", change .addition 1 "0", change .addition 2 "1"]

/-- A sensor makes the rule false. -/
def falseAt (id : Nat) : Link :=
  ⟨.violated, (∅ : Bindings).insert "x" id⟩

/-- A rule registered over the sensors. -/
def unsettled : Checker :=
  (Checker.addRule sentence readings).after checker

end Sample

theorem Checker.witnesses_cover_sample : ∃ r n, Sample.unsettled.rules["calm"]? = some r ∧
    r.tree.root = some n ∧ r.status.witnesses = [Sample.falseAt 0, Sample.falseAt 2] ∧
    r.Witnessed Sample.unsettled.engine n ∧
    ∀ id, (∃ w ∈ r.status.witnesses, w.bindings["x"]? = some id) ↔
      ∃ kid ∈ n.kids, kid.cell.bound = some id ∧ kid.cell.truth = .no := by
  have hvalue : (addRule Sample.sentence Sample.readings).value Sample.checker =
      .ok ⟨"calm", ⟨.no, [Sample.falseAt 0, Sample.falseAt 2]⟩, none⟩ := by decide +kernel
  obtain ⟨c, hadded⟩ := Routine.exists_of_value hvalue
  obtain rfl : Sample.unsettled = c := Routine.after_eq hadded
  have hstatus : (Sample.unsettled.rules["calm"]?).map Rule.status =
      some ⟨.no, [Sample.falseAt 0, Sample.falseAt 2]⟩ := by decide +kernel
  obtain ⟨r, n, hr, hsent, hn, -, -, hno, -⟩ := witnesses_cover Sample.build_draft
    (.added rfl hadded rfl)
  rw [show Sample.unsettled.rules["calm"]? = some r from hr] at hstatus
  have he : r.status = _ := Option.some.inj hstatus
  have hwitnessed := hno (congrArg Status.truth he)
  refine ⟨r, n, hr, hn, congrArg Status.witnesses he, hwitnessed, ?_⟩
  exact hwitnessed.contexts 1 _ (.application 0 ⟨"calm", [("v1", "x")]⟩) (by rw [hsent]; rfl) rfl

end RuleMonitor
