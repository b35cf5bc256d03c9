import RuleMonitor.Proofs.Evaluation.Fragments
import RuleMonitor.Proofs.Evaluation.Full
import RuleMonitor.Proofs.Meaning
import RuleMonitor.Proofs.Paths

/-!
# Drafts that are valid

A draft is valid from a root by the paths from there. No two of them end at quantifiers that bind one
variable, or quantify over one pattern, and what the node at the end of a path depends on is bound by a
quantifier on the way to it.

Reading a draft whose nodes refer to earlier ones is exact: it succeeds if and only if the draft is valid.
And that is enough: in the instantiation of the formula that is read, over any pools, all that filters
and predicates depend on is bound.

* `Draft.Acyclic`, `Draft.Valid`: drafts that are valid from a root.
* **`Draft.readNode_of_covered`**: reading succeeds; **`Draft.exists_build_iff`**: it is exact.
* `Fragment.Has`; **`Formula.contains_of_has`**: what is bound in an instantiation.
* `Sentence.Files`, `Sentence.WellFormed.depthOf?_lt`: the depths of patterns.
* **`Draft.build_exact`**: drafts that are built, and what they are good for.
-/

namespace RuleMonitor

open Std (ExtTreeMap ExtTreeSet)

/-! ## Drafts -/

namespace Draft

/-- Nodes refer to nodes that were added before them. -/
def Acyclic (d : Draft) : Prop :=
  ∀ (i : Nat) (shape : Shape), d.nodes[i]? = some shape → ∀ kid ∈ shape.kids, kid < i

theorem acyclic_iff {d : Draft} :
    d.Acyclic ↔ ∀ entry ∈ d.nodes.zipIdx, ∀ kid ∈ entry.1.kids, kid < entry.2 :=
  ⟨fun h entry hentry => h entry.2 entry.1 (List.mem_zipIdx_iff_getElem?.mp hentry),
    fun h i shape hi => h (shape, i) (List.mem_zipIdx_iff_getElem?.mpr hi)⟩

instance (d : Draft) : Decidable d.Acyclic :=
  decidable_of_iff _ acyclic_iff.symm

/-- The draft is valid from a root: no variable is bound and no pattern is quantified over at the ends of
two paths, filters depend on variables that are bound above their quantifiers, and predicates are applied
to such. -/
structure Valid (d : Draft) (root : Nat) : Prop where
  inside : root < d.nodes.length
  vars : ∀ {path path' : List Nat} {q q' : Quantifier}, quantifierOn? d.nodes root path = some q →
    quantifierOn? d.nodes root path' = some q' → q.var = q'.var → path = path'
  patterns : ∀ {path path' : List Nat} {q q' : Quantifier}, quantifierOn? d.nodes root path = some q →
    quantifierOn? d.nodes root path' = some q' → q.pattern = q'.pattern → path = path'
  filters : ∀ {path : List Nat} {q : Quantifier}, quantifierOn? d.nodes root path = some q →
    ∀ filter ∈ q.filter, BoundOn d.nodes root path filter.dep
  params : ∀ {path : List Nat} {a : Application},
    shapeOn? d.nodes root path = some (.application a) → ∀ p ∈ a.params, BoundOn d.nodes root path p.2

/-! ## Reading succeeds -/

variable {d : Draft} {rule : String} {nodes : List Shape} {scope : List String} {b : Bound} {root : Nat}

theorem bindQuantifier_of_new {q : Quantifier} (hv : q.var ∉ b.vars) (hp : q.pattern ∉ b.patterns)
    (hf : ∀ filter ∈ q.filter, filter.dep ∈ scope) :
    bindQuantifier rule q scope b = .ok ⟨⟩ ⟨q.var :: b.vars, q.pattern :: b.patterns⟩ := by
  have hv : b.vars.contains q.var = false := by simpa using hv
  have hp : b.patterns.contains q.pattern = false := by simpa using hp
  unfold bindQuantifier
  rw [Routine.get_bind, hv, hp]
  cases hfilter : q.filter with
  | none => rfl
  | some filter =>
    have hdep : scope.contains filter.dep = true := List.contains_iff_mem.mpr (hf filter hfilter)
    simp only [hdep]
    rfl

theorem checkParams_of_scope {a : Application} (h : ∀ p ∈ a.params, p.2 ∈ scope) :
    checkParams rule a scope b = .ok ⟨⟩ b := by
  have hnone : a.params.find? (fun p => !scope.contains p.2) = none :=
    List.find?_eq_none.mpr fun p hp => by simpa using h p hp
  unfold checkParams
  rw [hnone]
  rfl

/-- **Reading a node** succeeds if the formula that it stands for is covered, and nothing is bound twice.
It binds the variables and patterns of the formula on top of what was bound before. -/
theorem readNode_of_covered {f : Formula} (hr : f.ReadFrom nodes) : ∀ {fuel : Nat} {scope : List String}
    {b : Bound}, f.height ≤ fuel → f.Covered scope → (f.vars.reverse ++ b.vars).Nodup →
    (f.patterns.reverse ++ b.patterns).Nodup → readNode rule nodes fuel f.index scope b =
      .ok f ⟨f.vars.reverse ++ b.vars, f.patterns.reverse ++ b.patterns⟩ := by
  induction f with
  | quantified i q body ih =>
    intro fuel scope b hfuel hc hv hp
    obtain ⟨fuel, rfl⟩ := Nat.exists_eq_add_one.mpr (Nat.lt_of_lt_of_le (Nat.succ_pos _) hfuel)
    obtain ⟨huses, hkids⟩ := Formula.covered_iff.mp hc
    rw [Formula.vars_quantified, List.reverse_cons, List.append_assoc] at hv ⊢
    rw [Formula.patterns_quantified, List.reverse_cons, List.append_assoc] at hp ⊢
    have hbind : bindQuantifier rule q scope b = .ok ⟨⟩ ⟨q.var :: b.vars, q.pattern :: b.patterns⟩ :=
      bindQuantifier_of_new (List.nodup_cons.mp (List.nodup_append.mp hv).2.1).1
        (List.nodup_cons.mp (List.nodup_append.mp hp).2.1).1 fun filter hf =>
          huses _ (Option.mem_toList.mpr (Option.map_eq_some_iff.mpr ⟨filter, hf, rfl⟩))
    have hbody : readNode rule nodes fuel body.index (q.var :: scope)
        ⟨q.var :: b.vars, q.pattern :: b.patterns⟩ = .ok body _ :=
      ih hr.2 (Nat.le_of_succ_le_succ hfuel) (hkids body (List.mem_singleton_self _)) hv hp
    unfold readNode
    rw [Formula.index, hr.1]
    simp only [Routine.bind_ok hbind, Routine.bind_ok hbody]
    rfl
  | binary i op left right ihl ihr =>
    intro fuel scope b hfuel hc hv hp
    obtain ⟨fuel, rfl⟩ := Nat.exists_eq_add_one.mpr (Nat.lt_of_lt_of_le (Nat.succ_pos _) hfuel)
    obtain ⟨-, hkids⟩ := Formula.covered_iff.mp hc
    rw [Formula.vars_binary, List.reverse_append, List.append_assoc] at hv ⊢
    rw [Formula.patterns_binary, List.reverse_append, List.append_assoc] at hp ⊢
    have hheight := Nat.max_le.mp (Nat.le_of_succ_le_succ hfuel)
    have hleft : readNode rule nodes fuel left.index scope b = .ok left _ :=
      ihl hr.2.1 hheight.1 (hkids left List.mem_cons_self) (List.nodup_append.mp hv).2.1
        (List.nodup_append.mp hp).2.1
    have hright : readNode rule nodes fuel right.index scope
        ⟨left.vars.reverse ++ b.vars, left.patterns.reverse ++ b.patterns⟩ = .ok right _ :=
      ihr hr.2.2 hheight.2 (hkids right (List.mem_cons_of_mem _ (List.mem_singleton_self _))) hv hp
    unfold readNode
    rw [Formula.index, hr.1]
    simp only [Routine.bind_ok hleft, Routine.bind_ok hright]
    rfl
  | negation i body ih =>
    intro fuel scope b hfuel hc hv hp
    obtain ⟨fuel, rfl⟩ := Nat.exists_eq_add_one.mpr (Nat.lt_of_lt_of_le (Nat.succ_pos _) hfuel)
    obtain ⟨-, hkids⟩ := Formula.covered_iff.mp hc
    have hbody : readNode rule nodes fuel body.index scope b = .ok body _ :=
      ih hr.2 (Nat.le_of_succ_le_succ hfuel) (hkids body (List.mem_singleton_self _)) hv hp
    unfold readNode
    rw [Formula.index, hr.1]
    simp only [Routine.bind_ok hbody]
    rfl
  | application i a =>
    intro fuel scope b hfuel hc hv hp
    obtain ⟨fuel, rfl⟩ := Nat.exists_eq_add_one.mpr hfuel
    obtain ⟨huses, -⟩ := Formula.covered_iff.mp hc
    have hparams : checkParams rule a scope b = .ok ⟨⟩ b := checkParams_of_scope fun p hp =>
      huses _ (List.mem_map_of_mem hp)
    unfold readNode
    rw [Formula.index, show nodes[i]? = some (.application a) from hr]
    simp only [Routine.bind_ok hparams]
    rfl

/-- Each node of a draft whose nodes refer to earlier ones stands for a formula. -/
theorem Acyclic.exists_readFrom (h : d.Acyclic) : ∀ i < d.nodes.length,
    ∃ f : Formula, f.index = i ∧ f.ReadFrom d.nodes ∧ f.height ≤ i + 1 := by
  intro i
  induction i using Nat.strongRecOn with
  | _ i ih =>
    intro hi
    have hshape := List.getElem?_eq_getElem hi
    generalize d.nodes[i] = shape at hshape
    have hkids := h i shape hshape
    cases shape with
    | quantified q body =>
      have hlt := hkids body (List.mem_singleton_self _)
      obtain ⟨f, rfl, hr, hheight⟩ := ih body hlt (Nat.lt_trans hlt hi)
      exact ⟨.quantified i q f, rfl, ⟨hshape, hr⟩, Nat.succ_le_succ (Nat.le_trans hheight hlt)⟩
    | binary op left right =>
      have hl := hkids left List.mem_cons_self
      have hr := hkids right (List.mem_cons_of_mem _ (List.mem_singleton_self _))
      obtain ⟨f, rfl, hf, hfheight⟩ := ih left hl (Nat.lt_trans hl hi)
      obtain ⟨g, rfl, hg, hgheight⟩ := ih right hr (Nat.lt_trans hr hi)
      exact ⟨.binary i op f g, rfl, ⟨hshape, hf, hg⟩,
        Nat.succ_le_succ (Nat.max_le.mpr ⟨Nat.le_trans hfheight hl, Nat.le_trans hgheight hr⟩)⟩
    | negation body =>
      have hlt := hkids body (List.mem_singleton_self _)
      obtain ⟨f, rfl, hr, hheight⟩ := ih body hlt (Nat.lt_trans hlt hi)
      exact ⟨.negation i f, rfl, ⟨hshape, hr⟩, Nat.succ_le_succ (Nat.le_trans hheight hlt)⟩
    | application a => exact ⟨.application i a, rfl, hshape, Nat.succ_le_succ (Nat.zero_le i)⟩

/-- A draft is valid from a root if the formula that it stands for is covered, and binds nothing twice. -/
theorem valid_iff {f : Formula} (hr : f.ReadFrom d.nodes) : d.Valid f.index ↔
    f.Covered [] ∧ f.vars.Nodup ∧ f.patterns.Nodup := by
  have hquantifier := hr.quantifierOn?_eq
  constructor
  · refine fun h => ⟨fun path g hg v hv => .inr (hr.boundOn_iff.mp ?_), ?_, ?_⟩
    · have hshape : shapeOn? d.nodes f.index path = some g.shape := by rw [hr.shapeOn?_eq, hg]; rfl
      rcases Shape.mem_uses.mp hv with ⟨q, hq, filter, hf, rfl⟩ | ⟨a, ha, p, hp, rfl⟩
      · exact h.filters (Option.bind_eq_some_iff.mpr ⟨_, hshape, hq⟩) filter hf
      · exact h.params (hshape.trans (congrArg some ha)) p hp
    · exact (Formula.nodup_map_quantifiers _).mpr fun hq hq' =>
        h.vars ((hquantifier _).trans hq) ((hquantifier _).trans hq')
    · exact (Formula.nodup_map_quantifiers _).mpr fun hq hq' =>
        h.patterns ((hquantifier _).trans hq) ((hquantifier _).trans hq')
  · rintro ⟨hcovered, hvars, hpatterns⟩
    have hbound : ∀ {path : List Nat} {shape : Shape}, shapeOn? d.nodes f.index path = some shape →
        ∀ v ∈ shape.uses, BoundOn d.nodes f.index path v := fun {path shape} hshape v hv => by
      rw [hr.shapeOn?_eq] at hshape
      obtain ⟨g, hg, rfl⟩ := Option.map_eq_some_iff.mp hshape
      exact hr.boundOn_iff.mpr ((hcovered path g hg v hv).resolve_left List.not_mem_nil)
    refine ⟨hr.index_lt, fun hq hq' => ?_, fun hq hq' => ?_, fun {path q} hq filter hf => ?_,
      fun {path a} ha p hp => hbound ha _ (Shape.mem_uses.mpr (.inr ⟨a, rfl, p, hp, rfl⟩))⟩
    · exact (Formula.nodup_map_quantifiers _).mp hvars ((hquantifier _).symm.trans hq)
        ((hquantifier _).symm.trans hq')
    · exact (Formula.nodup_map_quantifiers _).mp hpatterns ((hquantifier _).symm.trans hq)
        ((hquantifier _).symm.trans hq')
    · obtain ⟨shape, hshape, hq⟩ := Option.bind_eq_some_iff.mp hq
      exact hbound hshape _ (Shape.mem_uses.mpr (.inl ⟨q, hq, filter, hf, rfl⟩))

theorem index_of_build {s : Sentence} (h : d.build root = .ok s) :
    s.nodes = d.nodes ∧ s.formula.index = root := by
  unfold build read at h
  split_ifs at h
  cases hf : readNode d.rule d.nodes (fuel d.nodes) root [] {} with
  | error e b' =>
    rw [Routine.value_error hf] at h
    cases h
  | ok f b' =>
    rw [Routine.value_ok hf] at h
    cases h
    exact ⟨rfl, (readNode_ok hf (List.nil_subset _)).1⟩

/-- **Reading is exact**: a draft whose nodes refer to earlier ones is read from a root if and only if it is
valid from there. -/
theorem exists_build_iff (h : d.Acyclic) : (∃ s, d.build root = .ok s) ↔ d.Valid root := by
  constructor
  · rintro ⟨s, hs⟩
    have hwell := Sentence.wellFormed_of_build hs
    obtain ⟨hnodes, rfl⟩ := index_of_build hs
    exact (valid_iff (hnodes ▸ hwell.read)).mpr ⟨hwell.inScope.covered, hwell.vars, hwell.patterns⟩
  · intro hvalid
    obtain ⟨f, rfl, hr, hheight⟩ := h.exists_readFrom root hvalid.inside
    obtain ⟨hcovered, hvars, hpatterns⟩ := (valid_iff hr).mp hvalid
    have hinside := hvalid.inside
    have hfuel : f.height ≤ fuel d.nodes := Nat.le_trans hheight (by unfold fuel; omega)
    have hread : readNode d.rule d.nodes (fuel d.nodes) f.index [] {} = .ok f _ :=
      readNode_of_covered hr hfuel hcovered (by rwa [List.append_nil, List.nodup_reverse])
        (by rwa [List.append_nil, List.nodup_reverse])
    refine ⟨{ d with root := f.index, formula := f }, ?_⟩
    unfold build read
    rw [if_pos hvalid.inside, Routine.value_ok hread]

end Draft

/-! ## What is bound in an instantiation -/

theorem Env.contains_substitute {env : Env} {v : String} (subst : Option Substitution)
    (h : env.contains v = true) : (env.substitute subst).contains v = true := by
  cases subst with
  | none => exact h
  | some s => rw [substitute, ExtTreeMap.contains_insert, h, Bool.or_true]

/-- A node of the fragment has a formula and an environment. -/
inductive Fragment.Has : Fragment → Nat → Env → Prop
  | root (i : Nat) (env : Env) (bound : Option Nat) (kids : List Fragment) : Has (.mk i env bound kids) i env
  | kid {i j : Nat} {env env' : Env} {bound : Option Nat} {kids : List Fragment} {kid : Fragment}
      (hkid : kid ∈ kids) (h : kid.Has j env') : Has (.mk i env bound kids) j env'

namespace Formula

variable {P : Pools} {f : Formula} {scope : List String}

/-- **What a formula depends on is bound** wherever it is instantiated. -/
theorem contains_of_has {nodes : List Shape} (hr : f.ReadFrom nodes) : ∀ {scope : List String} {env : Env}
    {bound : Option Nat}, f.Covered scope → (∀ v ∈ scope, env.contains v = true) →
    ∀ {i : Nat} {env' : Env}, (f.fragment P env bound).Has i env' →
      ∃ shape, nodes[i]? = some shape ∧ ∀ v ∈ shape.uses, env'.contains v = true := by
  have here : ∀ {g : Formula} {scope : List String} {env : Env}, g.ReadFrom nodes → g.Covered scope →
      (∀ v ∈ scope, env.contains v = true) →
      ∃ shape, nodes[g.index]? = some shape ∧ ∀ v ∈ shape.uses, env.contains v = true :=
    fun hg hc henv => ⟨_, hg.shape_eq, fun v hv => henv v ((covered_iff.mp hc).1 v hv)⟩
  induction f with
  | quantified i q body ih =>
    intro scope env bound hc henv j env' h
    cases h with
    | root => exact here hr hc henv
    | kid hkid h =>
      obtain ⟨c, -, rfl⟩ := List.mem_map.mp hkid
      refine ih hr.2 ((covered_iff.mp hc).2 body (List.mem_singleton_self _)) (fun v hv => ?_) h
      rw [Quantifier.bind, ExtTreeMap.contains_insert, Bool.or_eq_true]
      rcases List.mem_cons.mp hv with rfl | hv
      · exact .inl (beq_iff_eq.mpr (Std.LawfulEqCmp.compare_eq_iff_eq.mpr rfl))
      · exact .inr (henv v hv)
  | binary i op left right ihl ihr =>
    intro scope env bound hc henv j env' h
    obtain ⟨-, hkids⟩ := covered_iff.mp hc
    cases h with
    | root => exact here hr hc henv
    | kid hkid h =>
      rcases List.mem_pair.mp hkid with rfl | rfl
      · exact ihl hr.2.1 (hkids left List.mem_cons_self) henv h
      · exact ihr hr.2.2 (hkids right (List.mem_cons_of_mem _ (List.mem_singleton_self _))) henv h
  | negation i body ih =>
    intro scope env bound hc henv j env' h
    cases h with
    | root => exact here hr hc henv
    | kid hkid h =>
      obtain rfl := List.mem_singleton.mp hkid
      exact ih hr.2 ((covered_iff.mp hc).2 body (List.mem_singleton_self _)) henv h
  | application i a =>
    intro scope env bound hc henv j env' h
    cases h with
    | root => exact here hr hc henv
    | kid hkid => cases hkid

end Formula

/-! ## Depths -/

namespace Sentence

variable {s : Sentence}

/-- **Patterns get less deep** on the way down. -/
theorem WellFormed.depthOf?_lt (h : s.WellFormed) {above : List Nat} {k : Nat} {rest : List Nat}
    {q q' : Quantifier} (hq : s.formula.quantifierOn? above = some q)
    (hq' : s.formula.quantifierOn? (above ++ k :: rest) = some q') :
    ∃ m n, s.depthOf? q.pattern = some m ∧ s.depthOf? q'.pattern = some n ∧ n < m := by
  obtain ⟨i, body, hf⟩ := Formula.exists_of_quantifierOn? hq
  obtain ⟨j, body', hf'⟩ := Formula.exists_of_quantifierOn? hq'
  obtain ⟨b, hb, rfl, hdepth⟩ := Formula.exists_mem_binders hf true
  obtain ⟨b', hb', rfl, hdepth'⟩ := Formula.exists_mem_binders hf' true
  have hlt : body'.height < body.height := by
    rw [Formula.follow?_append, hf, Option.bind_some] at hf'
    obtain ⟨kid, hk, hkid⟩ := Option.bind_eq_some_iff.mp hf'
    obtain rfl := List.mem_singleton.mp (List.mem_of_getElem? hk)
    exact Nat.lt_of_lt_of_le (Nat.lt_succ_self _) (Formula.height_le_of_follow? hkid)
  refine ⟨body.height, body'.height, ?_, ?_, hlt⟩
  · rw [depthOf?, h.binderOf?_eq hb, Option.map_some, hdepth]
  · rw [depthOf?, h.binderOf?_eq hb', Option.map_some, hdepth']

/-- A relation tells which patterns are filed under a depth, and none is empty. -/
structure Files (m : ExtTreeMap Nat (ExtTreeSet String)) (R : Nat → String → Prop) : Prop where
  mem : ∀ depth p, p ∈ m.getD depth ∅ ↔ R depth p
  nonempty : ∀ {depth : Nat} {set : ExtTreeSet String}, m[depth]? = some set → ∃ p, p ∈ set

theorem Files.insert {m : ExtTreeMap Nat (ExtTreeSet String)} {R : Nat → String → Prop} (h : Files m R)
    (b : Binder) : Files (m.insert b.depth ((m.getD b.depth ∅).insert b.quantifier.pattern))
      fun depth p => R depth p ∨ b.depth = depth ∧ b.quantifier.pattern = p where
  mem depth p := by
    rw [ExtTreeMap.getD_insert]
    simp only [Std.LawfulEqCmp.compare_eq_iff_eq]
    split_ifs with hdepth
    · subst hdepth
      rw [ExtTreeSet.mem_insert, h.mem, Std.LawfulEqCmp.compare_eq_iff_eq, or_comm]
      exact or_congr_right (and_iff_right rfl).symm
    · rw [h.mem]
      exact (or_iff_left fun hb => hdepth hb.1).symm
  nonempty hset := by
    rw [Map.getElem?_insert] at hset
    split_ifs at hset
    · cases hset
      exact ⟨_, ExtTreeSet.mem_insert_self⟩
    · exact h.nonempty hset

theorem Files.foldl (l : List Binder) : ∀ {m : ExtTreeMap Nat (ExtTreeSet String)}
    {R : Nat → String → Prop}, Files m R →
    Files (l.foldl (fun m b => m.insert b.depth ((m.getD b.depth ∅).insert b.quantifier.pattern)) m)
      fun depth p => R depth p ∨ ∃ b ∈ l, b.depth = depth ∧ b.quantifier.pattern = p := by
  induction l with
  | nil => exact fun h => ⟨fun depth p => (h.mem depth p).trans (or_iff_left (by simp)).symm, h.nonempty⟩
  | cons b l ih =>
    intro m R h
    obtain ⟨hmem, hnonempty⟩ := ih (h.insert b)
    refine ⟨fun depth p => (hmem depth p).trans ?_, hnonempty⟩
    rw [List.exists_mem_cons_iff, or_assoc]

/-- **The patterns by their depths** are the inverse of the depths of patterns. -/
theorem WellFormed.files_patternsByDepth (h : s.WellFormed) :
    Files s.patternsByDepth fun depth p => s.depthOf? p = some depth := by
  have hempty : Files ∅ fun _ _ => False :=
    ⟨fun depth p => iff_false_intro (by simp), fun hset => by simp at hset⟩
  obtain ⟨hmem, hnonempty⟩ := hempty.foldl s.binders
  refine ⟨fun depth p => (hmem depth p).trans ?_, hnonempty⟩
  rw [false_or]
  constructor
  · rintro ⟨b, hb, rfl, rfl⟩
    rw [depthOf?, h.binderOf?_eq hb]
    rfl
  · intro hdepth
    obtain ⟨b, hb, rfl⟩ := Option.map_eq_some_iff.mp hdepth
    exact ⟨b, List.mem_of_find?_eq_some hb, rfl, of_decide_eq_true (List.find?_some hb :)⟩

end Sentence

/-- **Drafts are validated exactly, and enough.** Take a draft whose nodes refer to nodes that were added before
them, and any root. A sentence is built if and only if the draft is valid from the root. If it is built, its
formula is instantiated over any facts, and at each node of the instantiation the filter of a quantifier and
the parameters of a predicate are about variables that the environment of the node binds; so the contexts of
the parameters are found, with any substitution. Patterns are deeper than those quantified over below them,
and the patterns by their depths are the inverse of the depths. -/
theorem Draft.build_exact {d : Draft} (h : d.Acyclic) (root : Nat) :
    ((∃ s, d.build root = .ok s) ↔ d.Valid root) ∧
    ∀ s, d.build root = .ok s →
      (∀ setting : Setting, ∃ fr, (setting.instantiate s.formula ∅ none).Yields fr ∧
        ∀ i env, fr.Has i env → ∃ shape, d.nodes[i]? = some shape ∧
          (∀ q, shape.quantifier? = some q → ∀ filter ∈ q.filter, env.contains filter.dep = true) ∧
          ∀ a, shape = .application a → ∀ subst, ∃ contexts,
            Registry.resolve a.name env subst a.params = .ok contexts) ∧
      (∀ above k rest q q', quantifierOn? d.nodes root above = some q →
        quantifierOn? d.nodes root (above ++ k :: rest) = some q' →
        ∃ m n, s.depthOf? q.pattern = some m ∧ s.depthOf? q'.pattern = some n ∧ n < m) ∧
      (∀ depth p, p ∈ s.patternsByDepth.getD depth ∅ ↔ s.depthOf? p = some depth) ∧
      ∀ (depth : Nat) (set : ExtTreeSet String), s.patternsByDepth[depth]? = some set → ∃ p, p ∈ set := by
  refine ⟨exists_build_iff h, fun s hs => ?_⟩
  have hwell := Sentence.wellFormed_of_build hs
  obtain ⟨hnodes, rfl⟩ := index_of_build hs
  have hread : s.formula.ReadFrom d.nodes := hnodes ▸ hwell.read
  refine ⟨fun setting => ⟨_, setting.instantiate_yields s.formula ∅ none, fun i env hi => ?_⟩,
    fun above k rest q q' hq hq' => ?_, hwell.files_patternsByDepth.mem,
    fun _ _ => hwell.files_patternsByDepth.nonempty⟩
  · obtain ⟨shape, hshape, huses⟩ := Formula.contains_of_has hread hwell.inScope.covered nofun hi
    refine ⟨shape, hshape, fun q hq filter hf => ?_, fun a ha subst => ?_⟩
    · exact huses _ (Shape.mem_uses.mpr (.inl ⟨q, hq, filter, hf, rfl⟩))
    · have hparams : ∀ p ∈ a.params, (env.substitute subst).contains p.2 = true := fun p hp =>
        Env.contains_substitute subst (huses _ (Shape.mem_uses.mpr (.inr ⟨a, ha, p, hp, rfl⟩)))
      obtain ⟨contexts, hcontexts, -⟩ := Registry.resolve_ok a.name hparams
      exact ⟨contexts, (Registry.resolve_substitute a.name env subst a.params).symm.trans hcontexts⟩
  · rw [hread.quantifierOn?_eq] at hq hq'
    exact hwell.depthOf?_lt hq hq'

/-! ## A sample -/

namespace Sample

/-- A sensor and a gauge that came later are at one place, or they are not. The comparison is shared, and
so is the whole rule by a conjunction with itself. -/
def paired : Draft where
  rule := "paired"
  nodes := [.application ⟨"same_loc", [("v1", "x"), ("v2", "y")]⟩, .negation 0, .binary .or 0 1,
    .quantified { kind := .universal, var := "y", pattern := "gauge", filter := some (.greater "x") } 2,
    .quantified { kind := .universal, var := "x", pattern := "sensor" } 3, .binary .and 4 4]

/-- The sentence of the draft. -/
def pairing : Sentence :=
  { paired with
    root := 4
    formula := .quantified 4 { kind := .universal, var := "x", pattern := "sensor" }
      (.quantified 3
        { kind := .universal, var := "y", pattern := "gauge", filter := some (.greater "x") }
        (.binary 2 .or (.application 0 ⟨"same_loc", [("v1", "x"), ("v2", "y")]⟩)
          (.negation 1 (.application 0 ⟨"same_loc", [("v1", "x"), ("v2", "y")]⟩)))) }

theorem build_paired : paired.build 4 = .ok pairing := rfl

theorem build_conjunction : (paired.build 5).toOption = none := by decide +kernel

end Sample

theorem Draft.build_exact_paired : Sample.paired.Valid 4 ∧ ¬ Sample.paired.Valid 5 ∧
    ∃ m n, Sample.pairing.depthOf? "sensor" = some m ∧ Sample.pairing.depthOf? "gauge" = some n ∧
      n < m := by
  have hacyclic : Sample.paired.Acyclic := by decide
  obtain ⟨hvalid, hbuilt⟩ := build_exact hacyclic 4
  refine ⟨hvalid.mp ⟨_, Sample.build_paired⟩, fun h => ?_, ?_⟩
  · obtain ⟨s, hs⟩ := (build_exact hacyclic 5).1.mpr h
    have hnone := Sample.build_conjunction
    rw [hs] at hnone
    cases hnone
  · exact (hbuilt _ Sample.build_paired).2.1 [] 0 [] _ _ rfl rfl

end RuleMonitor
