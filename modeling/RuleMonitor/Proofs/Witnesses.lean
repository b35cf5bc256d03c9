import RuleMonitor.Proofs.Facts.Pools
import RuleMonitor.Proofs.Links
import RuleMonitor.Proofs.Meaning

/-!
# Links are witnesses

A link of a formula binds variables of the formula to live contexts, and these contexts alone decide
the truth: if the pool of the pattern of each variable bound is narrowed to the context that the link
binds it to, the formula keeps its truth. Unions and products of links keep this because no variable is
bound twice, so that each operand only sees the part of a link that is its own.

* `Sentence.narrow`: the pools narrowed to the contexts of a link.
* **`Formula.live_of_mem_links`**: what a link binds.
* **`Formula.holds_narrowed`**: the truth over narrowed pools.
* `Formula.evaluates_narrowed`: nothing fails that did not fail before.
-/

namespace RuleMonitor

open Std (ExtTreeMap ExtTreeSet)

/-- The pool with one context, if it is live. -/
def Pool.only (pool : Pool) (id : Nat) : Pool :=
  match pool[id]? with
  | some c => (∅ : Pool).insert id c
  | none => ∅

/-- The pools where the pattern of each variable that a link binds is narrowed to the context that it
is bound to. -/
def Sentence.narrow (s : Sentence) (w : Link) (P : Pools) : Pools :=
  P.map fun p pool =>
    match (s.binderOf? p).bind fun b => w.bindings[b.quantifier.var]? with
    | some id => pool.only id
    | none => pool

theorem Pool.getElem?_only (pool : Pool) (id k : Nat) :
    (pool.only id)[k]? = if id = k then pool[k]? else none := by
  unfold only
  split_ifs with h
  · subst h
    cases hid : pool[id]? with
    | some c => rw [ExtTreeMap.getElem?_insert_self]
    | none => rw [ExtTreeMap.getElem?_empty]
  · cases pool[id]? with
    | some c => rw [Map.getElem?_insert, if_neg h, ExtTreeMap.getElem?_empty]
    | none => rw [ExtTreeMap.getElem?_empty]

theorem QuantifierKind.fold_of_witness {k : QuantifierKind} {l : List Bool}
    (h : k.witnessTruth ∈ l) : k.fold l = k.witnessTruth := by
  cases k with
  | universal => exact List.all_eq_false.mpr ⟨false, h, Bool.false_ne_true⟩
  | existential => exact List.any_eq_true.mpr ⟨true, h, rfl⟩

namespace Formula

variable {r : Registry} {P P' : Pools} {f left right : Formula} {env : Env} {l w : Link}

/-- The pools of the patterns quantified over are narrowed to the contexts of a link. -/
def Narrowed (f : Formula) (w : Link) (P P' : Pools) : Prop :=
  ∀ q ∈ f.quantifiers, P'.pool q.pattern = match w.bindings[q.var]? with
    | some id => (P.pool q.pattern).only id
    | none => P.pool q.pattern

/-- The link binds the variables of the formula as one of its links does, or none of them. -/
def Covers (r : Registry) (P : Pools) (env : Env) (f : Formula) (w : Link) : Prop :=
  (∃ l ∈ f.links r P env, ∀ v ∈ f.vars, w.bindings[v]? = l.bindings[v]?) ∨
    ∀ v ∈ f.vars, w.bindings[v]? = none

/-! ## What a link binds -/

theorem mem_firstLinks {op : Connective} {s : LinkSet} :
    l ∈ op.firstLinks s → ∃ l₀ ∈ s, l.bindings = l₀.bindings := by
  unfold Connective.firstLinks
  split_ifs
  · intro h
    obtain ⟨l₀, h₀, rfl⟩ := LinkSet.mem_image.mp h
    exact ⟨l₀, h₀, rfl⟩
  · exact fun h => ⟨l, h, rfl⟩

/-- What the links of a connective bind: what links of its operands do. -/
theorem mem_explain {op : Connective} {t a b : Bool} {s m : LinkSet} (h : l ∈ op.explain t a b s m) :
    (∃ x ∈ s, l.bindings = x.bindings) ∨ (∃ y ∈ m, l.bindings = y.bindings) ∨
      ∃ x ∈ s, ∃ y ∈ m, ∀ v : String, l.bindings[v]? = (y.bindings[v]?).or x.bindings[v]? := by
  unfold Connective.explain at h
  dsimp only at h
  by_cases hneeds : op.needsBoth t = true
  · rw [if_pos hneeds] at h
    cases hs : (op.firstLinks s).isEmpty with
    | true =>
      unfold LinkSet.product at h
      rw [hs, if_pos rfl] at h
      exact .inr (.inl ⟨l, h, rfl⟩)
    | false =>
      cases hm : m.isEmpty with
      | true =>
        unfold LinkSet.product at h
        rw [hs, hm, if_neg Bool.false_ne_true, if_pos rfl] at h
        exact .inl (mem_firstLinks h)
      | false =>
        obtain ⟨x, hx, y, hy, rfl⟩ := (LinkSet.mem_product hs hm).mp h
        obtain ⟨x₀, hx₀, he⟩ := mem_firstLinks hx
        refine .inr (.inr ⟨x₀, hx₀, y, hy, fun v => ?_⟩)
        rw [Link.getElem?_merge, he]
  · rw [if_neg hneeds] at h
    have hif : ∀ {x : Bool} {s : LinkSet}, l ∈ (if x = true then s else ∅ : LinkSet) → l ∈ s :=
      fun {x s} h => by
        cases x with
        | true => exact h
        | false => exact absurd h ExtTreeSet.not_mem_empty
    rcases ExtTreeSet.mem_union_iff.mp h with h | h
    · exact .inl (mem_firstLinks (hif h))
    · exact .inr (.inl ⟨l, hif h, rfl⟩)

theorem mem_withBinding {s : LinkSet} {k : LinkKind} {v : String} {id : Nat}
    (h : l ∈ s.withBinding k v id) :
    (∃ x ∈ s, ∀ u : String, l.bindings[u]? = if v = u then some id else x.bindings[u]?) ∨
      ∀ u : String, l.bindings[u]? = if v = u then some id else none := by
  unfold LinkSet.withBinding at h
  split_ifs at h
  · rw [ExtTreeSet.mem_ofList, List.contains_iff_mem, List.mem_singleton] at h
    subst h
    exact .inr fun u => by rw [Map.getElem?_insert, ExtTreeMap.getElem?_empty]
  · obtain ⟨x, hx, rfl⟩ := LinkSet.mem_image.mp h
    exact .inl ⟨x, hx, fun u => Link.getElem?_bind x k v u id⟩

/-- **A link binds variables of the formula** to contexts that are live. -/
theorem live_of_mem_links (hP : P.Keyed) : ∀ {env : Env} {l : Link} {v : String} {id : Nat},
    l ∈ f.links r P env → l.bindings[v]? = some id →
    ∃ q ∈ f.quantifiers, q.var = v ∧ (P.live? q.pattern id).isSome = true := by
  induction f with
  | quantified i q body ih =>
    intro env l v id hl hv
    obtain ⟨c, hc, -, hl⟩ := mem_links_quantified.mp hl
    have hlive := ((Pools.mem_range hP).mp hc).1
    rcases mem_withBinding hl with ⟨x, hx, hbind⟩ | hbind
    · rw [hbind v] at hv
      split_ifs at hv with hqv
      · cases hv
        exact ⟨q, List.mem_cons_self, hqv, Option.isSome_of_eq_some hlive⟩
      · obtain ⟨q', hq', h⟩ := ih hx hv
        exact ⟨q', List.mem_cons_of_mem q hq', h⟩
    · rw [hbind v] at hv
      split_ifs at hv with hqv
      cases hv
      exact ⟨q, List.mem_cons_self, hqv, Option.isSome_of_eq_some hlive⟩
  | binary i op left right ihl ihr =>
    intro env l v id hl hv
    have hleft : ∀ {x : Link}, x ∈ left.links r P env → x.bindings[v]? = some id →
        ∃ q ∈ (binary i op left right).quantifiers, q.var = v ∧
          (P.live? q.pattern id).isSome = true := fun hx hv => by
      obtain ⟨q, hq, h⟩ := ihl hx hv
      exact ⟨q, List.mem_append_left _ hq, h⟩
    have hright : ∀ {x : Link}, x ∈ right.links r P env → x.bindings[v]? = some id →
        ∃ q ∈ (binary i op left right).quantifiers, q.var = v ∧
          (P.live? q.pattern id).isSome = true := fun hx hv => by
      obtain ⟨q, hq, h⟩ := ihr hx hv
      exact ⟨q, List.mem_append_right _ hq, h⟩
    rcases mem_explain hl with ⟨x, hx, e⟩ | ⟨y, hy, e⟩ | ⟨x, hx, y, hy, e⟩
    · exact hleft hx (e ▸ hv)
    · exact hright hy (e ▸ hv)
    · rw [e v, Option.or_eq_some_iff] at hv
      rcases hv with hv | ⟨-, hv⟩
      · exact hright hy hv
      · exact hleft hx hv
  | negation i body ih =>
    intro env l v id hl hv
    obtain ⟨x, hx, rfl⟩ := LinkSet.mem_image.mp hl
    exact ih hx hv
  | application i a =>
    intro env l v id hl
    exact absurd hl ExtTreeSet.not_mem_empty

theorem mem_vars_of_mem_links (hP : P.Keyed) {v : String} (hl : l ∈ f.links r P env)
    (hv : l.bindings[v]? ≠ none) : v ∈ f.vars := by
  obtain ⟨id, hid⟩ := Option.ne_none_iff_exists'.mp hv
  obtain ⟨q, hq, rfl, -⟩ := live_of_mem_links hP hl hid
  exact List.mem_map.mpr ⟨q, hq, rfl⟩

/-! ## The parts of a link -/

theorem Covers.operands {i : Nat} {op : Connective} (hP : P.Keyed)
    (hd : List.Disjoint left.vars right.vars)
    (h : (binary i op left right).Covers r P env w) :
    left.Covers r P env w ∧ right.Covers r P env w := by
  rcases h with ⟨l, hl, hw⟩ | hw
  · rw [vars_binary, List.forall_mem_append] at hw
    have hleft : ∀ {y}, y ∈ right.links r P env → ∀ v ∈ left.vars, y.bindings[v]? = none :=
      fun hy v hv => by_contra fun hne => hd hv (mem_vars_of_mem_links hP hy hne)
    have hright : ∀ {x}, x ∈ left.links r P env → ∀ v ∈ right.vars, x.bindings[v]? = none :=
      fun hx v hv => by_contra fun hne => hd (mem_vars_of_mem_links hP hx hne) hv
    rcases mem_explain hl with ⟨x, hx, e⟩ | ⟨y, hy, e⟩ | ⟨x, hx, y, hy, e⟩
    · exact ⟨.inl ⟨x, hx, fun v hv => e ▸ hw.1 v hv⟩,
        .inr fun v hv => (hw.2 v hv).trans (e ▸ hright hx v hv)⟩
    · exact ⟨.inr fun v hv => (hw.1 v hv).trans (e ▸ hleft hy v hv),
        .inl ⟨y, hy, fun v hv => e ▸ hw.2 v hv⟩⟩
    · refine ⟨.inl ⟨x, hx, fun v hv => ?_⟩, .inl ⟨y, hy, fun v hv => ?_⟩⟩
      · rw [hw.1 v hv, e, hleft hy v hv, Option.none_or]
      · rw [hw.2 v hv, e, hright hx v hv, Option.or_none]
  · rw [vars_binary, List.forall_mem_append] at hw
    exact ⟨.inr hw.1, .inr hw.2⟩

/-- The pools are the same as before if none of the variables is bound. -/
theorem Narrowed.holds_of_unbound (h : f.Narrowed w P P') (hw : ∀ v ∈ f.vars, w.bindings[v]? = none)
    (env : Env) : f.holds r P' env = f.holds r P env := by
  refine holds_congr env fun p hp => ?_
  obtain ⟨q, hq, rfl⟩ := List.mem_map.mp hp
  rw [h q hq, hw q.var (List.mem_map.mpr ⟨q, hq, rfl⟩)]

theorem range_of_only {q : Quantifier} {c : Context} (hc : c ∈ q.range P env) (hP : P.Keyed)
    (h : P'.pool q.pattern = (P.pool q.pattern).only c.id) : q.range P' env = [c] := by
  obtain ⟨hlive, hadmits⟩ := (Pools.mem_range hP).mp hc
  have hpool : P'.pool q.pattern = (∅ : Pool).insert c.id c := by
    rw [h, Pool.only]
    change (match P.live? q.pattern c.id with | some c' => _ | none => _) = _
    rw [hlive]
  have hdomain : P'.domain q.pattern = [c] := by
    unfold Pools.domain
    rw [hpool]
    rfl
  unfold Quantifier.range
  rw [hdomain, List.filter_singleton, hadmits]
  rfl

/-- **A formula keeps its truth** over pools that are narrowed to a link that covers it. -/
theorem holds_narrowed (hP : P.Keyed) : ∀ {env : Env} {w : Link}, f.vars.Nodup →
    f.Narrowed w P P' → f.Covers r P env w → f.holds r P' env = f.holds r P env := by
  induction f with
  | quantified i q body ih =>
    intro env w hnd hnarrow hcovers
    rcases hcovers with ⟨l, hl, hw⟩ | hw
    · obtain ⟨c, hc, hwitness, hl⟩ := mem_links_quantified.mp hl
      rw [vars_quantified, List.nodup_cons] at hnd
      rw [vars_quantified, List.forall_mem_cons] at hw
      have hne : ∀ v ∈ body.vars, q.var ≠ v := fun v hv e => hnd.1 (e ▸ hv)
      have hq : w.bindings[q.var]? = some c.id := by
        rw [hw.1]
        rcases mem_withBinding hl with ⟨x, -, hx⟩ | hx <;> rw [hx, if_pos rfl]
      have hbody : body.Covers r P (q.bind env c) w := by
        rcases mem_withBinding hl with ⟨x, hx, hbind⟩ | hbind
        · exact .inl ⟨x, hx, fun v hv => by rw [hw.2 v hv, hbind, if_neg (hne v hv)]⟩
        · exact .inr fun v hv => by rw [hw.2 v hv, hbind, if_neg (hne v hv)]
      have hpool : P'.pool q.pattern = (P.pool q.pattern).only c.id := by
        rw [hnarrow q List.mem_cons_self, hq]
      have htruth : body.holds r P' (q.bind env c) = q.kind.witnessTruth :=
        (ih hnd.2 (fun q' hq' => hnarrow q' (List.mem_cons_of_mem q hq')) hbody).trans hwitness
      rw [holds, holds, range_of_only hc hP hpool, List.map_singleton, htruth,
        QuantifierKind.fold_of_witness List.mem_cons_self,
        QuantifierKind.fold_of_witness (List.mem_map.mpr ⟨c, hc, hwitness⟩)]
    · exact hnarrow.holds_of_unbound hw env
  | binary i op left right ihl ihr =>
    intro env w hnd hnarrow hcovers
    rw [vars_binary, List.nodup_append'] at hnd
    obtain ⟨hl, hr⟩ := hcovers.operands hP hnd.2.2
    rw [holds, holds, ihl hnd.1 (fun q hq => hnarrow q (List.mem_append_left _ hq)) hl,
      ihr hnd.2.1 (fun q hq => hnarrow q (List.mem_append_right _ hq)) hr]
  | negation i body ih =>
    intro env w hnd hnarrow hcovers
    have hbody : body.Covers r P env w := by
      refine hcovers.imp_left fun h => ?_
      obtain ⟨l, hl, hw⟩ := h
      obtain ⟨x, hx, rfl⟩ := LinkSet.mem_image.mp hl
      exact ⟨x, hx, hw⟩
    rw [holds, holds, ih hnd hnarrow hbody]
  | application i a => exact fun _ _ _ => rfl

theorem evaluates_narrowed (hP : P.Keyed) (hP' : P'.Keyed) : ∀ {env : Env}, f.Narrowed w P P' →
    f.Evaluates r P env → f.Evaluates r P' env := by
  induction f with
  | quantified i q body ih =>
    intro env hnarrow he c hc
    refine ih (fun q' hq' => hnarrow q' (List.mem_cons_of_mem q hq')) (he c ?_)
    obtain ⟨hlive, hadmits⟩ := (Pools.mem_range hP').mp hc
    refine (Pools.mem_range hP).mpr ⟨?_, hadmits⟩
    have hpool := hnarrow q List.mem_cons_self
    have hlive' : (P'.pool q.pattern)[c.id]? = some c := hlive
    rw [hpool] at hlive'
    cases hw : w.bindings[q.var]? with
    | none =>
      rw [hw] at hlive'
      exact hlive'
    | some id =>
      rw [hw] at hlive'
      dsimp only at hlive'
      rw [Pool.getElem?_only] at hlive'
      split_ifs at hlive'
      exact hlive'
  | binary i op left right ihl ihr =>
    exact fun hnarrow he => ⟨ihl (fun q hq => hnarrow q (List.mem_append_left _ hq)) he.1,
      ihr (fun q hq => hnarrow q (List.mem_append_right _ hq)) he.2⟩
  | negation i body ih => exact fun hnarrow he => ih hnarrow he
  | application i a => exact fun _ he => he

end Formula

namespace Sentence

variable {s : Sentence} {w : Link} {P : Pools}

theorem pool_narrow (s : Sentence) (w : Link) (P : Pools) (p : String) :
    (s.narrow w P).pool p = match (s.binderOf? p).bind fun b => w.bindings[b.quantifier.var]? with
      | some id => (P.pool p).only id
      | none => P.pool p := by
  have hempty : ∀ id, (∅ : Pool).only id = ∅ := fun id => by
    unfold Pool.only
    rw [ExtTreeMap.getElem?_empty]
  unfold Pools.pool narrow
  rw [ExtTreeMap.getD_eq_getD_getElem?, ExtTreeMap.getD_eq_getD_getElem?, ExtTreeMap.getElem?_map]
  cases P[p]? with
  | some pool => rfl
  | none =>
    cases (s.binderOf? p).bind fun b => w.bindings[b.quantifier.var]? with
    | some id => exact (hempty id).symm
    | none => rfl

theorem WellFormed.narrowed (h : s.WellFormed) (w : Link) (P : Pools) :
    s.formula.Narrowed w P (s.narrow w P) := by
  intro q hq
  obtain ⟨b, rfl, -, hb, -⟩ := h.binder_of_mem hq
  rw [pool_narrow, hb]
  rfl

theorem keyed_narrow (hP : P.Keyed) : (s.narrow w P).Keyed := by
  intro p id c hc
  unfold Pools.live? at hc
  rw [pool_narrow] at hc
  split at hc
  · rw [Pool.getElem?_only] at hc
    split_ifs at hc
    exact hP p id c hc
  · exact hP p id c hc

end Sentence

/-- **A witness is sound**: it binds variables of the formula to live contexts, and over the pools that
are narrowed to them the formula has its truth. -/
theorem Sentence.WellFormed.links_sound {s : Sentence} {r : Registry} {P : Pools} {w : Link}
    (h : s.WellFormed) (hP : P.Keyed) (he : s.formula.Evaluates r P ∅)
    (hw : w ∈ s.formula.links r P ∅) :
    (∀ (v : String) (id : Nat), w.bindings[v]? = some id →
      ∃ p, s.patternOf? v = some p ∧ (P.live? p id).isSome = true) ∧
    s.formula.truth r (s.narrow w P) ∅ = .ok (s.formula.holds r P ∅) := by
  refine ⟨fun v id hv => ?_, ?_⟩
  · obtain ⟨q, hq, rfl, hlive⟩ := Formula.live_of_mem_links hP hw hv
    obtain ⟨-, -, -, -, hp⟩ := h.binder_of_mem hq
    exact ⟨q.pattern, hp, hlive⟩
  · have hnarrow := h.narrowed w P
    rw [Formula.truth_eq (Formula.evaluates_narrowed hP (Sentence.keyed_narrow hP) hnarrow he),
      Formula.holds_narrowed hP h.vars hnarrow (.inl ⟨w, hw, fun _ _ => rfl⟩)]

end RuleMonitor
