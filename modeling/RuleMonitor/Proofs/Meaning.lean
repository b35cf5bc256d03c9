import RuleMonitor.Proofs.Facts.Pools
import RuleMonitor.Proofs.Sentences
import RuleMonitor.Semantics.Explanation

/-!
# The meaning of a formula

A formula **evaluates** over pools if no predicate fails that its truth depends on. It then has a
truth and links, which are functions of the pools of its own patterns, and no order in which contexts
are looked at matters to them.

* `Formula.Evaluates`, `Formula.holds`, `Formula.links`; **`Formula.truth_eq`**,
  `Formula.explanation_eq`: what the truth and the explanation answer.
* `Formula.holds_congr`, `Formula.links_congr`: other patterns do not matter.
* `Registry.Decides`: the predicates of a formula never fail; **`Formula.evaluates_of_decides`**.
-/

namespace RuleMonitor

open Std (ExtTreeMap ExtTreeSet)

/-! ## Folds and unions in any order -/

namespace QuantifierKind

theorem fold_perm (k : QuantifierKind) {l l' : List Bool} (h : l.Perm l') : k.fold l = k.fold l' := by
  cases k with
  | universal => exact h.all_eq
  | existential => exact h.any_eq

theorem fold_append (k : QuantifierKind) (l l' : List Bool) :
    k.fold (l ++ l') = k.fold (k.fold l :: l') := by
  cases k with
  | universal => simp [fold]
  | existential => simp [fold]

end QuantifierKind

namespace Quantifier

theorem mem_gather {q : Quantifier} {bs : List (Context × Bool × LinkSet)} {l : Link} :
    l ∈ q.gather bs ↔ ∃ b ∈ bs, b.2.1 = q.kind.witnessTruth ∧
      l ∈ b.2.2.withBinding q.kind.linkKind q.var b.1.id := by
  induction bs with
  | nil => simp [gather]
  | cons b bs ih =>
    rw [gather, List.exists_mem_cons_iff]
    split_ifs with h
    · rw [ExtTreeSet.mem_union_iff, ih]
      simp only [h, true_and]
    · rw [ih]
      simp only [h, false_and, false_or]

theorem contains_bind {q : Quantifier} {env : Env} {scope : List String}
    (h : ∀ v ∈ scope, env.contains v) (c : Context) :
    ∀ v ∈ q.var :: scope, (q.bind env c).contains v := by
  intro v hv
  rw [bind, ExtTreeMap.contains_insert, Bool.or_eq_true]
  rcases List.mem_cons.mp hv with rfl | hv
  · exact .inl (by simp)
  · exact .inr (h v hv)

end Quantifier

namespace Formula

variable {r : Registry} {P Q : Pools}

/-- No predicate fails that the truth of the formula depends on. -/
def Evaluates (r : Registry) (P : Pools) : Formula → Env → Prop
  | quantified _ q body, env => ∀ c ∈ q.range P env, Evaluates r P body (q.bind env c)
  | binary _ _ left right, env => Evaluates r P left env ∧ Evaluates r P right env
  | negation _ body, env => Evaluates r P body env
  | application _ a, env => ∃ b, r.eval a env none = .ok b

/-- The truth of a formula that evaluates. -/
def holds (r : Registry) (P : Pools) : Formula → Env → Bool
  | quantified _ q body, env =>
    q.kind.fold ((q.range P env).map fun c => holds r P body (q.bind env c))
  | binary _ op left right, env => op.eval (holds r P left env) (holds r P right env)
  | negation _ body, env => !holds r P body env
  | application _ a, env => (r.eval a env none).toOption.getD false

/-- The links of a formula that evaluates. -/
def links (r : Registry) (P : Pools) : Formula → Env → LinkSet
  | quantified _ q body, env =>
    q.gather ((q.range P env).map fun c =>
      (c, holds r P body (q.bind env c), links r P body (q.bind env c)))
  | binary _ op left right, env =>
    op.explain (op.eval (holds r P left env) (holds r P right env)) (holds r P left env)
      (holds r P right env) (links r P left env) (links r P right env)
  | negation _ body, env => (links r P body env).flipped
  | application .., _ => ∅

theorem mem_links_quantified {i : Nat} {q : Quantifier} {body : Formula} {env : Env} {l : Link} :
    l ∈ (quantified i q body).links r P env ↔
      ∃ c ∈ q.range P env, body.holds r P (q.bind env c) = q.kind.witnessTruth ∧
        l ∈ (body.links r P (q.bind env c)).withBinding q.kind.linkKind q.var c.id := by
  rw [links, Quantifier.mem_gather]
  simp only [List.mem_map, exists_exists_and_eq_and]

/-! ## What evaluation answers -/

theorem mapM_ok {α β : Type} {f : α → Except Failure β} {g : α → β} {l : List α}
    (h : ∀ a ∈ l, f a = .ok (g a)) : l.mapM f = .ok (l.map g) := by
  induction l with
  | nil => rfl
  | cons a l ih =>
    rw [List.mapM_cons, h a List.mem_cons_self, ih fun b hb => h b (List.mem_cons_of_mem a hb)]
    rfl

theorem holds_application {i : Nat} {a : Application} {env : Env} {b : Bool}
    (h : r.eval a env none = .ok b) : (application i a).holds r P env = b := by
  rw [holds, h]
  rfl

/-- **The truth** of a formula that evaluates. -/
theorem truth_eq {f : Formula} : ∀ {env : Env}, f.Evaluates r P env →
    f.truth r P env = .ok (f.holds r P env) := by
  induction f with
  | quantified i q body ih =>
    intro env h
    rw [truth, mapM_ok fun c hc => ih (h c hc)]
    rfl
  | binary i op left right ihl ihr =>
    intro env h
    rw [truth, ihl h.1, ihr h.2]
    rfl
  | negation i body ih =>
    intro env h
    rw [truth, ih h]
    rfl
  | application i a =>
    rintro env ⟨b, h⟩
    rw [truth, holds_application h, h]

theorem explanation_eq {f : Formula} : ∀ {env : Env}, f.Evaluates r P env →
    f.explanation r P env = .ok (f.holds r P env, f.links r P env) := by
  induction f with
  | quantified i q body ih =>
    intro env h
    have hm : (q.range P env).mapM (fun c => do
          return (c, ← body.explanation r P (q.bind env c)) : Context → Except Failure _) =
        .ok ((q.range P env).map fun c =>
          (c, body.holds r P (q.bind env c), body.links r P (q.bind env c))) := by
      refine mapM_ok fun c hc => ?_
      rw [ih (h c hc)]
      rfl
    rw [explanation, hm, holds, links]
    change Except.ok _ = Except.ok _
    rw [List.map_map]
    rfl
  | binary i op left right ihl ihr =>
    intro env h
    rw [explanation, ihl h.1, ihr h.2]
    rfl
  | negation i body ih =>
    intro env h
    rw [explanation, ih h]
    rfl
  | application i a =>
    rintro env ⟨b, h⟩
    rw [explanation, holds_application h, h]
    rfl

/-! ## Other patterns -/

section Congruence

variable {f : Formula}

theorem evaluates_congr : ∀ {env : Env}, (∀ p ∈ f.patterns, P.pool p = Q.pool p) →
    (f.Evaluates r P env ↔ f.Evaluates r Q env) := by
  induction f with
  | quantified i q body ih =>
    intro env h
    rw [patterns_quantified, List.forall_mem_cons] at h
    rw [Evaluates, Evaluates, Pools.range_congr h.1]
    exact forall₂_congr fun c _ => ih h.2
  | binary i op left right ihl ihr =>
    intro env h
    rw [patterns_binary, List.forall_mem_append] at h
    exact and_congr (ihl h.1) (ihr h.2)
  | negation i body ih => exact fun h => ih h
  | application i a => exact fun _ => Iff.rfl

theorem Evaluates.mono (hP : P.Keyed) (hQ : Q.Keyed)
    (h : ∀ p id c, Q.live? p id = some c → P.live? p id = some c) : ∀ {env : Env},
    f.Evaluates r P env → f.Evaluates r Q env := by
  induction f with
  | quantified i q body ih =>
    intro env he c hc
    rw [Pools.mem_range hQ] at hc
    exact ih (he c ((Pools.mem_range hP).mpr ⟨h _ _ _ hc.1, hc.2⟩))
  | binary i op left right ihl ihr => exact fun he => ⟨ihl he.1, ihr he.2⟩
  | negation i body ih => exact fun he => ih he
  | application i a => exact fun he => he

theorem holds_congr : ∀ (env : Env), (∀ p ∈ f.patterns, P.pool p = Q.pool p) →
    f.holds r P env = f.holds r Q env := by
  induction f with
  | quantified i q body ih =>
    intro env h
    rw [patterns_quantified, List.forall_mem_cons] at h
    rw [holds, holds, Pools.range_congr h.1]
    exact congrArg _ (List.map_congr_left fun c _ => ih _ h.2)
  | binary i op left right ihl ihr =>
    intro env h
    rw [patterns_binary, List.forall_mem_append] at h
    rw [holds, holds, ihl env h.1, ihr env h.2]
  | negation i body ih =>
    intro env h
    rw [holds, holds, ih env h]
  | application i a => exact fun _ _ => rfl

theorem links_congr : ∀ (env : Env), (∀ p ∈ f.patterns, P.pool p = Q.pool p) →
    f.links r P env = f.links r Q env := by
  induction f with
  | quantified i q body ih =>
    intro env h
    rw [patterns_quantified, List.forall_mem_cons] at h
    rw [links, links, Pools.range_congr h.1]
    refine congrArg _ (List.map_congr_left fun c _ => ?_)
    rw [holds_congr _ h.2, ih _ h.2]
  | binary i op left right ihl ihr =>
    intro env h
    rw [patterns_binary, List.forall_mem_append] at h
    rw [links, links, holds_congr env h.1, holds_congr env h.2, ihl env h.1, ihr env h.2]
  | negation i body ih =>
    intro env h
    rw [links, links, ih env h]
  | application i a => exact fun _ _ => rfl

end Congruence

/-! ## Predicates that never fail -/

/-- The predicates that the formula applies. -/
def applications : Formula → List Application
  | quantified _ _ body | negation _ body => body.applications
  | binary _ _ left right => left.applications ++ right.applications
  | application _ a => [a]

end Formula

namespace Registry

/-- Every predicate that the formula applies is known, and decides on whatever contexts are put in its
positions. -/
def Decides (r : Registry) (f : Formula) : Prop :=
  ∀ a ∈ f.applications, ∃ p, r.find? a.name = some p ∧
    ∀ contexts : List (String × Context), contexts.map Prod.fst = a.params.map Prod.fst →
      ∃ b, p ⟨a.name, contexts⟩ = .ok b

theorem resolve_ok (name : String) {env : Env} {params : List (String × String)}
    (h : ∀ p ∈ params, env.contains p.2) :
    ∃ contexts, resolve name env none params = .ok contexts ∧
      contexts.map Prod.fst = params.map Prod.fst := by
  induction params with
  | nil => exact ⟨[], rfl, rfl⟩
  | cons p params ih =>
    obtain ⟨position, var⟩ := p
    rw [List.forall_mem_cons] at h
    obtain ⟨contexts, hc, hm⟩ := ih h.2
    have hv : env[var]?.isSome = true := by
      rw [← ExtTreeMap.contains_eq_isSome_getElem?]
      exact h.1
    obtain ⟨c, hv⟩ := Option.isSome_iff_exists.mp hv
    have hl : env.lookup none var = some c := hv
    refine ⟨(position, c) :: contexts, ?_, ?_⟩
    · rw [resolve, hl]
      simp only [hc]
      rfl
    · rw [List.map_cons, List.map_cons, hm]

end Registry

namespace Formula

variable {r : Registry} {P : Pools}

/-- **A formula evaluates** if its predicates never fail and its variables are bound. -/
theorem evaluates_of_decides {f : Formula} : ∀ {scope : List String} {env : Env}, r.Decides f →
    f.Scoped scope → (∀ v ∈ scope, env.contains v) → f.Evaluates r P env := by
  induction f with
  | quantified i q body ih =>
    intro scope env hd hs hv c _
    exact ih hd hs.2.2 (Quantifier.contains_bind hv c)
  | binary i op left right ihl ihr =>
    intro scope env hd hs hv
    exact ⟨ihl (fun a ha => hd a (List.mem_append_left _ ha)) hs.1 hv,
      ihr (fun a ha => hd a (List.mem_append_right _ ha)) hs.2 hv⟩
  | negation i body ih => exact fun hd hs hv => ih hd hs hv
  | application i a =>
    intro scope env hd hs hv
    obtain ⟨p, hp, hb⟩ := hd a List.mem_cons_self
    obtain ⟨contexts, hc, hm⟩ := Registry.resolve_ok a.name fun x hx => hv _ (hs x hx)
    obtain ⟨b, hb⟩ := hb contexts hm
    refine ⟨b, ?_⟩
    rw [Registry.eval, hc, ← hb]
    simp only [hp]
    rfl

end Formula

theorem Sentence.WellFormed.evaluates {r : Registry} {s : Sentence} (h : s.WellFormed)
    (hd : r.Decides s.formula) (P : Pools) : s.formula.Evaluates r P ∅ :=
  Formula.evaluates_of_decides hd h.inScope nofun

end RuleMonitor
