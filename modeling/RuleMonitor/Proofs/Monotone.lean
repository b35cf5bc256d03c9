import RuleMonitor.Proofs.Meaning
import RuleMonitor.Proofs.Sentences

/-!
# What a change can do to a rule

A context more under a universal quantifier can only falsify it, a context less can only make it true,
and for existential quantifiers and under negations it is the other way round. Since every pattern is
quantified over once, one more context moves the truth of a whole formula in one direction, which is
what the effect of a change tells.

* `Pools.Within`: pools that differ in the contexts of one pattern, of which the other has more.
* `Formula.Falls`: contexts of a pattern can only falsify the formula.
* **`Formula.holds_of_within`**: one step for each connective and quantifier.
* `Sentence.WellFormed.falls_of_plus`, `Sentence.WellFormed.falls_of_minus`: what an effect tells.
* **`Sentence.WellFormed.holds_of_step`**: a change that cannot make a rule true does not.
-/

namespace RuleMonitor

namespace Pools

variable {P Q : Pools} {p : String} {c : Change}

/-- The pools of the other patterns are the same, and all contexts of the pattern are live in `Q`. -/
structure Within (p : String) (P Q : Pools) : Prop where
  others : ∀ p', p' ≠ p → P.pool p' = Q.pool p'
  live : ∀ (id : Nat) c, P.live? p id = some c → Q.live? p id = some c

theorem step_others (P : Pools) (c : Change) {p : String} (h : p ≠ c.pattern) :
    (P.step c).pool p = P.pool p := by
  unfold step
  rw [pool_insert, if_neg (Ne.symm h)]

theorem within_step (hv : c.isValid P = true) (hk : c.kind = .addition) :
    Within c.pattern P (P.step c) where
  others p' hp := (P.step_others c hp).symm
  live id x hx := by
    rw [live?_step, if_neg, hx]
    rintro ⟨-, rfl⟩
    rw [isValid_iff, hx, hk] at hv
    simp at hv

theorem step_within (hk : c.kind = .deletion) : Within c.pattern (P.step c) P where
  others _ hp := P.step_others c hp
  live id x hx := by
    rw [live?_step] at hx
    split_ifs at hx
    · rw [Change.outcome, if_pos hk] at hx
      cases hx
    · exact hx

/-- A quantifier over the pattern ranges over at least as many contexts. -/
theorem Within.range_subset (hw : Within p P Q) {q : Quantifier} (hq : q.pattern = p) (env : Env) :
    q.range P env ⊆ q.range Q env := by
  subst hq
  intro c hc
  unfold Quantifier.range domain at hc ⊢
  rw [List.mem_filter, Map.mem_values] at hc ⊢
  exact ⟨hc.1.imp fun id h => hw.live id c h, hc.2⟩

end Pools

theorem QuantifierKind.fold_mono {α : Type} (kind : QuantifierKind) {as : List α} {f g : α → Bool}
    (hfg : ∀ a ∈ as, f a = true → g a = true) (h : kind.fold (as.map f) = true) :
    kind.fold (as.map g) = true := by
  cases kind with
  | universal =>
    rw [fold, List.all_map, List.all_eq_true] at h ⊢
    exact fun a ha => hfg a ha (h a ha)
  | existential =>
    rw [fold, List.any_map, List.any_eq_true] at h ⊢
    exact h.imp fun a ha => ⟨ha.1, hfg a ha.1 ha.2⟩

namespace Formula

variable {r : Registry} {P Q : Pools} {p : String} {f : Formula}

/-- More contexts of a pattern can only move a formula of a polarity, and what is around it, to false:
it is quantified over universally where the polarity is positive, and existentially elsewhere. -/
def Falls (p : String) (positive : Bool) (f : Formula) : Prop :=
  ∀ b ∈ f.binders positive, b.quantifier.pattern = p →
    (b.quantifier.kind = .universal ↔ b.positive = true)

/-- A quantifier over the pattern, with a body that does not mention it: only the range matters. -/
theorem holds_of_within_over (hw : Pools.Within p P Q) {i : Nat} {q : Quantifier} {body : Formula} {env : Env}
    (hq : q.pattern = p) (hp : p ∉ body.patterns) : ∀ {positive : Bool},
    (q.kind = .universal ↔ positive = true) →
    (quantified i q body).holds r (bif positive then Q else P) env = true →
    (quantified i q body).holds r (bif positive then P else Q) env = true := by
  have hsame : ∀ env, body.holds r P env = body.holds r Q env := fun env =>
    holds_congr env fun p' hp' => hw.others p' fun e => hp (e ▸ hp')
  have hrange := hw.range_subset hq env
  rintro (_ | _) hkind h
  case true =>
    have hu : q.kind = .universal := hkind.mpr rfl
    rw [cond_true] at h ⊢
    rw [holds, hu, QuantifierKind.fold, List.all_map, List.all_eq_true] at h ⊢
    exact fun c hc => (hsame _).trans (h c (hrange hc))
  case false =>
    have he : q.kind = .existential := by
      cases hq : q.kind with
      | universal => exact absurd (hkind.mp hq) Bool.false_ne_true
      | existential => rfl
    rw [cond_false] at h ⊢
    rw [holds, he, QuantifierKind.fold, List.any_map, List.any_eq_true] at h ⊢
    obtain ⟨c, hc, hb⟩ := h
    exact ⟨c, hrange hc, (hsame _).symm.trans hb⟩

theorem holds_of_within_beside (hw : Pools.Within p P Q) {i : Nat} {q : Quantifier} {body : Formula} {env : Env}
    (hq : q.pattern ≠ p) {positive : Bool}
    (hbody : ∀ env, body.holds r (bif positive then Q else P) env = true →
      body.holds r (bif positive then P else Q) env = true)
    (h : (quantified i q body).holds r (bif positive then Q else P) env = true) :
    (quantified i q body).holds r (bif positive then P else Q) env = true := by
  have hrange : q.range (bif positive then Q else P) env = q.range (bif positive then P else Q) env := by
    have := Pools.range_congr (hw.others _ hq) env
    cases positive with
    | true => exact this.symm
    | false => exact this
  rw [holds, hrange] at h
  exact q.kind.fold_mono (fun c _ => hbody (q.bind env c)) h

/-- **More contexts of a pattern** move a formula that falls with them to false, or to true under a
negation. -/
theorem holds_of_within (hw : Pools.Within p P Q) :
    ∀ (positive : Bool) {env : Env}, f.patterns.Nodup → f.Falls p positive →
      f.holds r (bif positive then Q else P) env = true →
      f.holds r (bif positive then P else Q) env = true := by
  induction f with
  | quantified i q body ih =>
    intro positive env hn hf h
    rw [patterns_quantified, List.nodup_cons] at hn
    have hbody : body.Falls p positive := fun b hb => hf b (List.mem_cons_of_mem _ hb)
    by_cases hq : q.pattern = p
    · exact holds_of_within_over hw hq (hq ▸ hn.1) (hf _ List.mem_cons_self hq) h
    · exact holds_of_within_beside hw hq (fun _ => ih positive hn.2 hbody) h
  | binary i op left right ihl ihr =>
    intro positive env hn hf h
    rw [patterns_binary, List.nodup_append] at hn
    have hl : left.Falls p (if op = .implies then !positive else positive) :=
      fun b hb => hf b (List.mem_append_left _ hb)
    have hr : right.Falls p positive := fun b hb => hf b (List.mem_append_right _ hb)
    have ihr := @ihr positive env hn.2.1 hr
    have ihl := @ihl _ env hn.1 hl
    rw [holds] at h ⊢
    cases op with
    | and =>
      rw [Connective.eval, Bool.and_eq_true] at h ⊢
      exact ⟨ihl h.1, ihr h.2⟩
    | or =>
      rw [Connective.eval, Bool.or_eq_true] at h ⊢
      exact h.imp ihl ihr
    | implies =>
      rw [Connective.eval, Bool.or_eq_true, Bool.not_eq_true'] at h ⊢
      refine h.imp (fun h => ?_) ihr
      rw [if_pos rfl] at ihl
      cases positive <;> exact Bool.eq_false_iff.mpr fun ht => Bool.eq_false_iff.mp h (ihl ht)
  | negation i body ih =>
    intro positive env hn hf h
    have ih := @ih (!positive) env hn hf
    rw [holds, Bool.not_eq_true'] at h ⊢
    cases positive <;> exact Bool.eq_false_iff.mpr fun ht => Bool.eq_false_iff.mp h (ih ht)
  | application i a => exact fun _ _ _ _ h => h

theorem mem_binders_not {b : Binder} : ∀ positive : Bool, b ∈ f.binders (!positive) →
    { b with positive := !b.positive } ∈ f.binders positive := by
  induction f with
  | quantified i q body ih =>
    intro positive hb
    rcases List.mem_cons.mp hb with rfl | hb
    · exact List.mem_cons.mpr (.inl (by rw [Bool.not_not]))
    · exact List.mem_cons_of_mem _ (ih positive hb)
  | binary i op left right ihl ihr =>
    intro positive hb
    rcases List.mem_append.mp hb with hb | hb
    · refine List.mem_append_left _ (ihl _ ?_)
      split_ifs at hb ⊢ <;> exact hb
    · exact List.mem_append_right _ (ihr positive hb)
  | negation i body ih => exact fun positive hb => ih (!positive) hb
  | application i a => exact fun _ hb => absurd hb List.not_mem_nil

end Formula

namespace Sentence

variable {s : Sentence} {r : Registry} {P Q : Pools} {c : Change} {p : String}

/-- More contexts of a pattern that a sentence does not quantify over leave it as it is. -/
theorem holds_eq_of_within (hw : Pools.Within p P Q) (hp : s.mentions p = false) :
    s.formula.holds r P ∅ = s.formula.holds r Q ∅ :=
  Formula.holds_congr ∅ fun p' hp' => hw.others p' fun e =>
    absurd (mentions_iff.mpr (e ▸ hp')) (Bool.eq_false_iff.mp hp)

namespace WellFormed

/-- **A sentence that additions can falsify** falls with more contexts of the pattern. -/
theorem falls_of_plus (hs : s.WellFormed) (he : s.effectOf .addition p = .plus) :
    s.formula.Falls p true := by
  intro b hb hp
  rw [← hp, effectOf, hs.binderOf?_eq hb] at he
  by_contra hn
  dsimp only at he
  rw [if_neg fun h => hn (iff_of_eq h)] at he
  cases he

/-- **A sentence that additions can make true** rises with more contexts of the pattern. -/
theorem falls_of_minus (hs : s.WellFormed) (he : s.effectOf .addition p = .minus) :
    s.formula.Falls p false := by
  intro b hb hp
  -- Read with the other polarity, the quantifier is one of the sentence.
  have hflip := Formula.mem_binders_not true hb
  rw [← hp, effectOf, hs.binderOf?_eq hflip] at he
  dsimp only at he
  have hne : ¬(b.quantifier.kind = .universal ↔ (!b.positive) = true) := fun hiff => by
    rw [if_pos (propext hiff)] at he
    cases he
  cases hpos : b.positive <;> rw [hpos] at hne <;> simpa using hne

theorem holds_of_plus (hs : s.WellFormed) (hw : Pools.Within p P Q)
    (he : s.effectOf .addition p = .plus) (h : s.formula.holds r Q ∅ = true) :
    s.formula.holds r P ∅ = true :=
  Formula.holds_of_within hw true hs.patterns (hs.falls_of_plus he) h

theorem holds_of_minus (hs : s.WellFormed) (hw : Pools.Within p P Q)
    (he : s.effectOf .addition p = .minus) (h : s.formula.holds r P ∅ = true) :
    s.formula.holds r Q ∅ = true :=
  Formula.holds_of_within hw false hs.patterns (hs.falls_of_minus he) h

end WellFormed

/-- Additions of a pattern that a sentence mentions have one effect, and deletions the opposite one. -/
theorem effectOf_cases (h : s.mentions p = true) :
    s.effectOf .addition p = .plus ∧ s.effectOf .deletion p = .minus ∨
      s.effectOf .addition p = .minus ∧ s.effectOf .deletion p = .plus := by
  obtain ⟨b, hb⟩ := Option.isSome_iff_exists.mp h
  unfold effectOf
  rw [hb]
  dsimp only
  split_ifs
  · exact .inl ⟨rfl, rfl⟩
  · exact .inr ⟨rfl, rfl⟩

/-- **A change that cannot make a rule true** leaves a rule false that is false. -/
theorem WellFormed.holds_of_step (hs : s.WellFormed) (hv : c.isValid P = true)
    (he : (s.effect c).isMinus = false) (h : s.formula.holds r (P.step c) ∅ = true) :
    s.formula.holds r P ∅ = true := by
  cases hm : s.mentions c.pattern with
  | false =>
    rw [← h]
    exact Formula.holds_congr ∅ fun p hps => (P.step_others c fun e =>
      absurd (mentions_iff.mpr (e ▸ hps)) (Bool.eq_false_iff.mp hm)).symm
  | true =>
    unfold effect at he
    cases hk : c.kind with
    | update =>
      obtain ⟨b, hb⟩ := Option.isSome_iff_exists.mp hm
      rw [hk, effectOf, hb] at he
      cases he
    | addition =>
      rw [hk] at he
      rcases effectOf_cases hm with ⟨hadd, -⟩ | ⟨hadd, -⟩
      · exact hs.holds_of_plus (Pools.within_step hv hk) hadd h
      · rw [hadd] at he
        cases he
    | deletion =>
      rw [hk] at he
      rcases effectOf_cases hm with ⟨-, hdel⟩ | ⟨hadd, -⟩
      · rw [hdel] at he
        cases he
      · exact hs.holds_of_minus (Pools.step_within hk) hadd h

/-- **Changes that cannot make a rule true** leave a rule false that is false. -/
theorem WellFormed.holds_of_after? (hs : s.WellFormed) {batch : List Change} : ∀ {P Q : Pools},
    P.after? batch = some Q → (∀ c ∈ batch, (s.effect c).isMinus = false) →
    s.formula.holds r Q ∅ = true → s.formula.holds r P ∅ = true := by
  induction batch with
  | nil =>
    intro P Q hQ _ h
    cases hQ
    exact h
  | cons c batch ih =>
    intro P Q hQ he h
    rw [Pools.after?_cons_eq_some] at hQ
    rw [List.forall_mem_cons] at he
    exact hs.holds_of_step hQ.1 he.1 (ih hQ.2 he.2 h)

end Sentence

end RuleMonitor
