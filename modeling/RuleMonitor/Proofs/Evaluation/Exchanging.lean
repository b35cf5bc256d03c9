import RuleMonitor.Proofs.Facts.Exchanges
import RuleMonitor.Proofs.Instances.Invariants
import RuleMonitor.Proofs.Links

/-!
# Formulas after an exchange

If the quantifier over a pattern cannot tell two contexts apart, then the one can take the place of the
other in the pool: the formula keeps its truth, and in its links the one is renamed to the other.

* `Formula.Indifferent`: no quantifier over the pattern can tell the contexts apart.
* **`Formula.meaning_exchange`**: truths and links after an exchange.
-/

namespace RuleMonitor

open Std (ExtTreeMap ExtTreeSet)

namespace Formula

variable {r : Registry} {P : Pools} {p v : String} {old new : Context} {f body : Formula}

/-- The quantifier over the pattern admits both contexts or neither, and its body has the same truth
and the same links for both. -/
def Indifferent (r : Registry) (P : Pools) (p : String) (old new : Context) : Formula → Env → Prop
  | quantified _ q body, env =>
    if q.pattern = p then
      q.admits env old = q.admits env new ∧ (q.admits env old = true →
        body.holds r P (q.bind env new) = body.holds r P (q.bind env old) ∧
        body.links r P (q.bind env new) = body.links r P (q.bind env old))
    else ∀ x ∈ q.range P env, Indifferent r P p old new body (q.bind env x)
  | binary _ _ left right, env =>
    Indifferent r P p old new left env ∧ Indifferent r P p old new right env
  | negation _ body, env => Indifferent r P p old new body env
  | application .., _ => True

/-- The variable is that of the quantifier over the pattern. -/
def Binds (p v : String) (f : Formula) : Prop :=
  ∀ q ∈ f.quantifiers, q.pattern = p ↔ q.var = v

theorem Binds.notMem_vars (h : f.Binds p v) (hp : p ∉ f.patterns) : v ∉ f.vars := by
  intro hv
  obtain ⟨q, hq, hqv⟩ := List.mem_map.mp hv
  exact hp (List.mem_map.mpr ⟨q, hq, (h q hq).mpr hqv⟩)

theorem mem_rename_links_quantified {i : Nat} {q : Quantifier} {body : Formula} {env : Env}
    {a b : Nat} {l : Link} : l ∈ ((quantified i q body).links r P env).rename v a b ↔
      ∃ x ∈ q.range P env, body.holds r P (q.bind env x) = q.kind.witnessTruth ∧
        l ∈ ((body.links r P (q.bind env x)).rename v a b).withBinding q.kind.linkKind q.var
          (if v = q.var then renameId a b x.id else x.id) := by
  rw [LinkSet.mem_rename]
  simp only [mem_links_quantified, ← LinkSet.rename_withBinding, LinkSet.mem_rename]
  constructor
  · rintro ⟨l₀, ⟨x, hx, ht, hl₀⟩, rfl⟩
    exact ⟨x, hx, ht, l₀, hl₀, rfl⟩
  · rintro ⟨x, hx, ht, l₀, hl₀, rfl⟩
    exact ⟨l₀, ⟨x, hx, ht, hl₀⟩, rfl⟩

theorem rename_links_of_notMem {a b : Nat} : ∀ {env : Env}, v ∉ f.vars →
    (f.links r P env).rename v a b = f.links r P env := by
  induction f with
  | quantified i q body ih =>
    intro env hv
    rw [vars_quantified, List.mem_cons, not_or] at hv
    refine LinkSet.ext_mem fun l => ?_
    rw [mem_rename_links_quantified, mem_links_quantified]
    simp only [ih hv.2, if_neg hv.1]
  | binary i op left right ihl ihr =>
    intro env hv
    rw [vars_binary, List.mem_append, not_or] at hv
    rw [links, Connective.rename_explain, ihl hv.1, ihr hv.2]
  | negation i body ih =>
    intro env hv
    rw [links, LinkSet.rename_flipped, ih hv]
  | application i _ => exact fun _ => LinkSet.rename_empty v a b

/-- A quantifier over the pattern binds the new context instead of the old one. -/
theorem meaning_exchange_over {i : Nat} {q : Quantifier} {env : Env} (hx : P.Exchangeable p old new)
    (hP : P.Keyed) (hq : q.pattern = p) (hp : p ∉ body.patterns) (hv : v = q.var) (hbody : body.Binds p v)
    (hi : (quantified i q body).Indifferent r P p old new env) :
    (quantified i q body).holds r (P.exchange p old.id new) env = (quantified i q body).holds r P env ∧
      (quantified i q body).links r (P.exchange p old.id new) env =
        ((quantified i q body).links r P env).rename v old.id new.id := by
  rw [Indifferent, if_pos hq] at hi
  have hpools : ∀ p' ∈ body.patterns, (P.exchange p old.id new).pool p' = P.pool p' := by
    intro p' hp'
    exact Pools.pool_exchange_of_ne P (fun e : p = p' => hp (e.symm ▸ hp')) _ _
  have hrange := Pools.range_exchange hx hP hq hi.1
  have hbranch : ∀ x ∈ q.range P env,
      body.holds r (P.exchange p old.id new) (q.bind env (old.instead new x)) =
        body.holds r P (q.bind env x) ∧
      body.links r (P.exchange p old.id new) (q.bind env (old.instead new x)) =
        body.links r P (q.bind env x) := by
    intro x hxr
    rw [holds_congr _ hpools, links_congr _ hpools]
    unfold Context.instead
    split_ifs with hid
    · rw [Pools.mem_range hP, hq, hid, hx.live] at hxr
      obtain rfl := Option.some.inj hxr.1
      exact hi.2 hxr.2
    · exact ⟨rfl, rfl⟩
  have hid : ∀ x, (old.instead new x).id = renameId old.id new.id x.id := by
    intro x
    unfold Context.instead renameId
    split_ifs <;> rfl
  refine ⟨?_, LinkSet.ext_mem fun l => ?_⟩
  · rw [holds, holds, q.kind.fold_perm (hrange.map _), List.map_map]
    exact congrArg q.kind.fold (List.map_congr_left fun x hxr => (hbranch x hxr).1)
  · rw [mem_links_quantified, mem_rename_links_quantified]
    simp only [if_pos hv, rename_links_of_notMem (hbody.notMem_vars hp), hrange.mem_iff,
      List.mem_map, exists_exists_and_eq_and]
    refine exists_congr fun x => and_congr_right fun hxr => ?_
    rw [(hbranch x hxr).1, (hbranch x hxr).2, hid]

theorem meaning_exchange_beside {i : Nat} {q : Quantifier} {env : Env} (hq : q.pattern ≠ p) (hv : v ≠ q.var)
    (hbranch : ∀ x ∈ q.range P env,
      body.holds r (P.exchange p old.id new) (q.bind env x) = body.holds r P (q.bind env x) ∧
        body.links r (P.exchange p old.id new) (q.bind env x) =
          (body.links r P (q.bind env x)).rename v old.id new.id) :
    (quantified i q body).holds r (P.exchange p old.id new) env = (quantified i q body).holds r P env ∧
      (quantified i q body).links r (P.exchange p old.id new) env =
        ((quantified i q body).links r P env).rename v old.id new.id := by
  have hrange : q.range (P.exchange p old.id new) env = q.range P env :=
    Pools.range_congr (Pools.pool_exchange_of_ne P (fun e => hq e.symm) _ _) env
  refine ⟨?_, LinkSet.ext_mem fun l => ?_⟩
  · rw [holds, holds, hrange]
    exact congrArg q.kind.fold (List.map_congr_left fun x hxr => (hbranch x hxr).1)
  · rw [mem_links_quantified, mem_rename_links_quantified, hrange]
    simp only [if_neg hv]
    refine exists_congr fun x => and_congr_right fun hxr => ?_
    rw [(hbranch x hxr).1, (hbranch x hxr).2]

/-- **Truths and links after an exchange** that the formula is indifferent to. -/
theorem meaning_exchange (hx : P.Exchangeable p old new) (hP : P.Keyed) : ∀ {env : Env},
    f.patterns.Nodup → f.Binds p v → f.Indifferent r P p old new env →
    f.holds r (P.exchange p old.id new) env = f.holds r P env ∧
      f.links r (P.exchange p old.id new) env = (f.links r P env).rename v old.id new.id := by
  induction f with
  | quantified i q body ih =>
    intro env hnd hb hi
    have hself := hb q List.mem_cons_self
    have hbody : body.Binds p v := fun q' hq' => hb q' (List.mem_cons_of_mem _ hq')
    rw [patterns_quantified, List.nodup_cons] at hnd
    by_cases hq : q.pattern = p
    · exact meaning_exchange_over hx hP hq (hq ▸ hnd.1) (hself.mp hq).symm hbody hi
    · rw [Indifferent, if_neg hq] at hi
      exact meaning_exchange_beside hq (fun e => hq (hself.mpr e.symm))
        fun x hxr => ih hnd.2 hbody (hi x hxr)
  | binary i op left right ihl ihr =>
    intro env hnd hb hi
    rw [patterns_binary, List.nodup_append] at hnd
    have hl := ihl hnd.1 (fun q hq => hb q (List.mem_append_left _ hq)) hi.1
    have hr := ihr hnd.2.1 (fun q hq => hb q (List.mem_append_right _ hq)) hi.2
    rw [holds, holds, links, links, Connective.rename_explain, hl.1, hl.2, hr.1, hr.2]
    exact ⟨rfl, rfl⟩
  | negation i body ih =>
    intro env hnd hb hi
    have hbody := ih hnd hb hi
    rw [holds, holds, links, links, LinkSet.rename_flipped, hbody.1, hbody.2]
    exact ⟨rfl, rfl⟩
  | application i a => exact fun _ _ _ => ⟨rfl, (LinkSet.rename_empty _ _ _).symm⟩

end Formula

end RuleMonitor
