import RuleMonitor.Proofs.Schedule.Streams
import RuleMonitor.Proofs.Script.Reading

/-!
# Rules that start ahead

The changes of a chunk are scheduled after all of it was read. A rule that was read between them starts
from the contexts that are live at the end of the chunk, and sees the changes behind it once more. This
leads it nowhere else if these changes are updates: they are still valid, and each context ends with the
value that it had.

* `Sentence.LedBy`: changes lead from pools to pools, as far as the patterns of a sentence go.
* `Sentence.LedBy.step`, `Sentence.ledBy_of_after?`: changes one after the other.
* **`Sentence.ledBy_again`**: updates that are seen once more.
-/

namespace RuleMonitor

namespace Pools

variable {P P' Q T : Pools} {l : List Change} {p : String} {id : Nat}

/-- Changes of some patterns are valid wherever these patterns have the same pools. -/
theorem after?_congr {ps : List String} (h : P.after? l = some Q) (hl : ∀ c ∈ l, c.pattern ∈ ps)
    (hP : ∀ p ∈ ps, P.pool p = P'.pool p) :
    ∃ Q', P'.after? l = some Q' ∧ ∀ p ∈ ps, Q.pool p = Q'.pool p := by
  induction l generalizing P P' with
  | nil =>
    cases h
    exact ⟨P', rfl, hP⟩
  | cons c l ih =>
    rw [after?_cons_eq_some] at h
    rw [List.forall_mem_cons] at hl
    obtain ⟨Q', hQ', hagree⟩ := ih h.2 hl.2 fun p hp => pool_step_congr (c := c) (hP p hp)
    exact ⟨Q', after?_cons_eq_some.mpr ⟨isValid_congr (hP _ hl.1) ▸ h.1, hQ'⟩, hagree⟩

theorem pool_step_of_ne (P : Pools) {c : Change} (h : c.pattern ≠ p) : (P.step c).pool p = P.pool p := by
  unfold step
  rw [pool_insert, if_neg h]

theorem isSome_live?_after? (h : P.after? l = some T) (hl : ∀ c ∈ l, c.pattern = p → c.kind = .update) :
    (T.live? p id).isSome = (P.live? p id).isSome := by
  induction l generalizing P with
  | nil =>
    cases h
    rfl
  | cons c l ih =>
    rw [after?_cons_eq_some] at h
    rw [List.forall_mem_cons] at hl
    rw [ih h.2 hl.2, live?_step]
    split_ifs with hc
    · have hk := hl.1 hc.1
      have hlive := (isValid_iff c P).mp h.1
      rw [hk, hc.1, hc.2] at hlive
      rw [hlive.mpr nofun, Change.outcome, hk]
      rfl
    · rfl

end Pools

namespace Sentence

variable {s : Sentence} {l : List Change} {c : Change} {P P' R T : Pools}

/-- The changes of the patterns of the sentence lead from pools to others, as far as these patterns go. -/
def LedBy (s : Sentence) (l : List Change) (P T : Pools) : Prop :=
  ∃ Q, P.after? (l.filter fun c => s.mentions c.pattern) = some Q ∧
    ∀ p ∈ s.formula.patterns, Q.pool p = T.pool p

theorem ledBy_nil : s.LedBy [] P T ↔ ∀ p ∈ s.formula.patterns, P.pool p = T.pool p :=
  ⟨fun ⟨Q, hQ, h⟩ => by cases hQ; exact h, fun h => ⟨P, rfl, h⟩⟩

theorem LedBy.congr (h : s.LedBy l P T) (hP : ∀ p ∈ s.formula.patterns, P.pool p = P'.pool p) :
    s.LedBy l P' T := by
  obtain ⟨Q, hQ, hT⟩ := h
  obtain ⟨Q', hQ', hagree⟩ := Pools.after?_congr hQ
    (fun c hc => mentions_iff.mp (List.mem_filter.mp hc).2) hP
  exact ⟨Q', hQ', fun p hp => (hagree p hp).symm.trans (hT p hp)⟩

theorem ledBy_cons (hp : c.pattern ∈ s.formula.patterns) :
    s.LedBy (c :: l) P T ↔ c.isValid P = true ∧ s.LedBy l (P.step c) T := by
  have hc : s.mentions c.pattern = true := mentions_iff.mpr hp
  unfold LedBy
  rw [List.filter_cons, if_pos hc]
  simp only [Pools.after?_cons_eq_some, and_assoc, exists_and_left]

theorem ledBy_cons_of_notMem (hp : c.pattern ∉ s.formula.patterns) :
    s.LedBy (c :: l) P T ↔ s.LedBy l P T := by
  have hc : ¬ s.mentions c.pattern = true := fun h => hp (mentions_iff.mp h)
  unfold LedBy
  rw [List.filter_cons, if_neg hc]

theorem pool_step_of_notMem (hp : c.pattern ∉ s.formula.patterns) (P : Pools) :
    ∀ p ∈ s.formula.patterns, P.pool p = (P.step c).pool p :=
  fun _ hps => (P.pool_step_of_ne fun e => hp (e.symm ▸ hps)).symm

/-- The first of the changes is valid if it matters, and the others lead on. -/
theorem LedBy.step (h : s.LedBy (c :: l) P T) :
    (c.pattern ∈ s.formula.patterns → c.isValid P = true) ∧ s.LedBy l (P.step c) T := by
  by_cases hp : c.pattern ∈ s.formula.patterns
  · obtain ⟨hv, h⟩ := (ledBy_cons hp).mp h
    exact ⟨fun _ => hv, h⟩
  · exact ⟨fun h => absurd h hp, ((ledBy_cons_of_notMem hp).mp h).congr (pool_step_of_notMem hp P)⟩

theorem ledBy_of_after? (h : P.after? l = some T) : s.LedBy l P T := by
  induction l generalizing P with
  | nil =>
    cases h
    exact ledBy_nil.mpr fun _ _ => rfl
  | cons c l ih =>
    rw [Pools.after?_cons_eq_some] at h
    have hrest := ih h.2
    by_cases hp : c.pattern ∈ s.formula.patterns
    · exact (ledBy_cons hp).mpr ⟨h.1, hrest⟩
    · exact (ledBy_cons_of_notMem hp).mpr
        (hrest.congr fun p hps => (pool_step_of_notMem hp P p hps).symm)

/-- Updates lead from pools in which each context has either the value before them or the one after
them to the latter. -/
theorem ledBy_of_mixed (hT : P.after? l = some T)
    (hl : ∀ c ∈ l, c.pattern ∈ s.formula.patterns → c.kind = .update)
    (hlive : ∀ p ∈ s.formula.patterns, ∀ id, (R.live? p id).isSome = (P.live? p id).isSome)
    (hmixed : ∀ p ∈ s.formula.patterns, ∀ id,
      R.live? p id = P.live? p id ∨ R.live? p id = T.live? p id) : s.LedBy l R T := by
  induction l generalizing P R with
  | nil =>
    cases hT
    exact ledBy_nil.mpr fun p hp => Pools.pool_ext fun id => (hmixed p hp id).elim (fun h => h) (fun h => h)
  | cons c l ih =>
    rw [Pools.after?_cons_eq_some] at hT
    rw [List.forall_mem_cons] at hl
    by_cases hp : c.pattern ∈ s.formula.patterns
    · have hv : c.isValid R = true := by
        rw [Pools.isValid_iff, hlive _ hp]
        exact (Pools.isValid_iff c P).mp hT.1
      refine (ledBy_cons hp).mpr ⟨hv, ih hT.2 hl.2 (fun p hps id => ?_) fun p hps id => ?_⟩
      · rw [Pools.live?_step, Pools.live?_step]
        split_ifs
        · rfl
        · exact hlive p hps id
      · rw [Pools.live?_step, Pools.live?_step]
        split_ifs
        · exact .inl rfl
        · exact hmixed p hps id
    · have hstep := pool_step_of_notMem hp P
      have hsame : ∀ p ∈ s.formula.patterns, ∀ id, P.live? p id = (P.step c).live? p id :=
        fun p hps id => congrArg (·[id]?) (hstep p hps)
      refine (ledBy_cons_of_notMem hp).mpr (ih hT.2 hl.2 (fun p hps id => ?_) fun p hps id => ?_)
      · rw [← hsame p hps]
        exact hlive p hps id
      · rw [← hsame p hps]
        exact hmixed p hps id

/-- **Updates that are seen once more** lead nowhere else. -/
theorem ledBy_again (hT : P.after? l = some T)
    (hl : ∀ c ∈ l, c.pattern ∈ s.formula.patterns → c.kind = .update) : s.LedBy l T T :=
  ledBy_of_mixed hT hl
    (fun _ hp _ => Pools.isSome_live?_after? hT fun c hc e => hl c hc (e.symm ▸ hp))
    fun _ _ _ => .inr rfl

end Sentence

end RuleMonitor
