import RuleMonitor.Proofs.Instances.Invariants

/-!
# Predicates that fail

A predicate may fail, and then the formula that applies it has no truth. Which failures that can lead
to is known from the registry: if all variables are bound, nothing else fails than the predicates.

* `Registry.FailsIn`: the failures of the predicates of a formula are of some kind.
* `Formula.Answers`: so are those that the truth of the formula over pools depends on;
  **`Formula.answers_of_failsIn`**.
* **`Formula.truth_error`**: a formula that does not evaluate has no truth.
* **`Formula.evaluates_of_found`**: a formula of which all truths were found evaluates.
-/

namespace RuleMonitor

open Std (ExtTreeMap)

/-- Wherever the variables of an application of the formula are bound, it is decided or fails with a
failure of some kind. -/
def Registry.FailsIn (r : Registry) (K : Failure → Prop) (f : Formula) : Prop :=
  ∀ a ∈ f.applications, ∀ env : Env, (∀ p ∈ a.params, env.contains p.2 = true) →
    ∀ e, r.eval a env none = .error e → K e

theorem Registry.Decides.failsIn {r : Registry} {f : Formula} (h : r.Decides f) (K : Failure → Prop) :
    r.FailsIn K f := by
  intro a ha env hv e he
  obtain ⟨p, hp, hb⟩ := h a ha
  obtain ⟨contexts, hc, hm⟩ := resolve_ok a.name hv
  obtain ⟨b, hb⟩ := hb contexts hm
  rw [eval, hc] at he
  simp only [hp] at he
  cases hb.symm.trans he

namespace Formula

variable {r : Registry} {K : Failure → Prop} {P Q : Pools} {f body : Formula} {env : Env}

/-- Every failure that the truth of the formula depends on is of some kind. -/
def Answers (r : Registry) (K : Failure → Prop) (P : Pools) : Formula → Env → Prop
  | quantified _ q body, env => ∀ c ∈ q.range P env, Answers r K P body (q.bind env c)
  | binary _ _ left right, env => Answers r K P left env ∧ Answers r K P right env
  | negation _ body, env => Answers r K P body env
  | application _ a, env => ∀ e, r.eval a env none = .error e → K e

/-- **A formula answers** if its predicates do and its variables are bound. -/
theorem answers_of_failsIn : ∀ {scope : List String} {env : Env}, r.FailsIn K f → f.Scoped scope →
    (∀ v ∈ scope, env.contains v) → f.Answers r K P env := by
  induction f with
  | quantified i q body ih =>
    intro scope env hd hs hv c _
    exact ih hd hs.2.2 (Quantifier.contains_bind hv c)
  | binary i op left right ihl ihr =>
    intro scope env hd hs hv
    exact ⟨ihl (fun a ha => hd a (List.mem_append_left _ ha)) hs.1 hv,
      ihr (fun a ha => hd a (List.mem_append_right _ ha)) hs.2 hv⟩
  | negation i body ih => exact fun hd hs hv => ih hd hs hv
  | application i a =>
    intro scope env hd hs hv
    exact hd a List.mem_cons_self env fun x hx => hv _ (hs x hx)

theorem Answers.kid {i : Nat} {q : Quantifier} {kids : List Node}
    (h : (quantified i q body).Answers r K P env)
    (hp : (kids.map Node.place).Perm (q.places P env)) {kid : Node} (hk : kid ∈ kids) :
    body.Answers r K P kid.cell.env := by
  obtain ⟨x, hx, -, he⟩ := exists_of_places hp hk
  rw [he]
  exact h x hx

theorem mapM_error {α β : Type} {g : α → Except Failure β} {l : List α}
    (hg : ∀ a ∈ l, (∃ b, g a = .ok b) ∨ ∃ e, g a = .error e ∧ K e)
    (h : ∃ a ∈ l, ∃ e, g a = .error e) : ∃ e, l.mapM g = .error e ∧ K e := by
  induction l with
  | nil => simp at h
  | cons a l ih =>
    rw [List.forall_mem_cons] at hg
    rw [List.mapM_cons]
    rcases hg.1 with ⟨b, hb⟩ | ⟨e, he, hK⟩
    · obtain ⟨a', ha', e, he⟩ := h
      rcases List.mem_cons.mp ha' with rfl | ha'
      · exact nomatch hb.symm.trans he
      · obtain ⟨e', he', hK⟩ := ih hg.2 ⟨a', ha', e, he⟩
        rw [hb, he']
        exact ⟨e', rfl, hK⟩
    · rw [he]
      exact ⟨e, rfl, hK⟩

/-- **A formula that does not evaluate** has no truth: finding it fails. -/
theorem truth_error : ∀ {env : Env}, f.Answers r K P env → ¬f.Evaluates r P env →
    ∃ e, f.truth r P env = .error e ∧ K e := by
  induction f with
  | quantified i q body ih =>
    intro env ha hn
    rw [Evaluates] at hn
    push Not at hn
    obtain ⟨x, hx, hn⟩ := hn
    obtain ⟨e, he, hK⟩ := mapM_error (g := fun c => body.truth r P (q.bind env c))
      (fun c hc => (em (body.Evaluates r P (q.bind env c))).imp (fun h => ⟨_, truth_eq h⟩)
        fun h => ih (ha c hc) h) ⟨x, hx, (ih (ha x hx) hn).imp fun _ h => h.1⟩
    rw [truth, he]
    exact ⟨e, rfl, hK⟩
  | binary i op left right ihl ihr =>
    intro env ha hn
    rw [truth]
    by_cases hl : left.Evaluates r P env
    · obtain ⟨e, he, hK⟩ := ihr ha.2 fun hr => hn ⟨hl, hr⟩
      rw [truth_eq hl, he]
      exact ⟨e, rfl, hK⟩
    · obtain ⟨e, he, hK⟩ := ihl ha.1 hl
      rw [he]
      exact ⟨e, rfl, hK⟩
  | negation i body ih =>
    intro env ha hn
    obtain ⟨e, he, hK⟩ := ih ha hn
    rw [truth, he]
    exact ⟨e, rfl, hK⟩
  | application i a =>
    intro env ha hn
    cases he : r.eval a env none with
    | ok b => exact absurd ⟨b, he⟩ hn
    | error e => exact ⟨e, he, ha e he⟩

theorem answers_true (r : Registry) (P : Pools) (f : Formula) :
    ∀ env, f.Answers r (fun _ => True) P env := by
  induction f with
  | quantified i q body ih => exact fun env c _ => ih _
  | binary i op left right ihl ihr => exact fun env => ⟨ihl env, ihr env⟩
  | negation i body ih => exact ih
  | application i a => exact fun env _ _ => trivial

theorem evaluates_iff : f.Evaluates r P env ↔ ∃ b, f.truth r P env = .ok b := by
  refine ⟨fun h => ⟨_, truth_eq h⟩, fun ⟨b, hb⟩ => ?_⟩
  by_contra hn
  obtain ⟨e, he, -⟩ := truth_error (answers_true r P f env) hn
  exact nomatch hb.symm.trans he

/-- **A formula evaluates** if the truths of all nodes of its instance were found. -/
theorem evaluates_of_found {n : Node} (hp : f.Every (Placed P) n) (hf : f.Every (Found r P) n) :
    f.Evaluates r P n.cell.env := by
  induction f generalizing n with
  | quantified i q body ih =>
    obtain ⟨c, kids⟩ := n
    intro x hx
    obtain ⟨kid, hk, -, he⟩ := exists_kid_of_places hp.1.2 hx
    rw [Node.cell_mk, ← he]
    exact ih (hp.2 kid hk) (hf.2 kid hk)
  | binary i op left right ihl ihr =>
    obtain ⟨c, kids⟩ := n
    obtain ⟨hp, a, b, rfl, hpa, hpb⟩ := hp
    obtain ⟨-, hfa, hfb⟩ := every_binary.mp hf
    exact ⟨hp.left_env ▸ ihl hpa hfa, hp.right_env ▸ ihr hpb hfb⟩
  | negation i body ih =>
    obtain ⟨c, kids⟩ := n
    obtain ⟨hp, a, rfl, hpa⟩ := hp
    obtain ⟨-, hfa⟩ := every_negation.mp hf
    exact (hp.operand_env ▸ ih hpa hfa : body.Evaluates r P c.env)
  | application i a => exact hf.root.2.2

end Formula

theorem Sentence.WellFormed.answers {r : Registry} {K : Failure → Prop} {s : Sentence}
    (h : s.WellFormed) (hd : r.FailsIn K s.formula) (P : Pools) : s.formula.Answers r K P ∅ :=
  Formula.answers_of_failsIn hd h.inScope nofun

end RuleMonitor
