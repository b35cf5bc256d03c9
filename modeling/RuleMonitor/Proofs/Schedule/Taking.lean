import RuleMonitor.Proofs.Schedule.Merging

/-!
# Taking changes

A rule takes a change in that concerns one of its patterns: the change is appended to its pending batch,
starts the next one, or is merged away. Afterwards what waits for the rule leads from its facts to the
pools after the change, and no other rule has noticed. A change that could make the rule true never
stands in the pending batch behind one that can falsify it, unless the batch changed its context before.

* `Checker.Serves`: a rule, and where its changes lead.
* `Sentence.Unmasked`: the order of changes in a batch; `Sentence.Unmasked.append`,
  `Sentence.Unmasked.without`: it is kept.
* **`Scheduler.take_does`**: what is left when a change was taken.
-/

namespace RuleMonitor

open Std (ExtTreeMap)

namespace Pools

variable {P Q : Pools} {c : Change} {p : String}

theorem isValid_congr (h : P.pool c.pattern = Q.pool c.pattern) : c.isValid P = c.isValid Q := by
  unfold Change.isValid
  rw [h]

theorem pool_step_congr (h : P.pool p = Q.pool p) : (P.step c).pool p = (Q.step c).pool p := by
  unfold step
  rw [pool_insert, pool_insert]
  split_ifs with hc
  · rw [hc, h]
  · exact h

end Pools

/-! ## The order of changes in a batch -/

namespace Sentence

variable {s : Sentence} {batch before after : List Change} {c other : Change}

/-- Whenever a change that can make the rule true comes after one that can falsify it, some earlier
change concerns the same context. -/
def Unmasked (s : Sentence) (batch : List Change) : Prop :=
  ∀ before c after, batch = before ++ c :: after → (s.effect c).isMinus = true →
    (∃ x ∈ before, (s.effect x).isPlus = true) → ∃ x ∈ before, x.id = c.id

theorem unmasked_nil (s : Sentence) : s.Unmasked [] :=
  fun _ _ _ h => absurd h.symm (List.append_ne_nil_of_right_ne_nil _ (List.cons_ne_nil _ _))

theorem unmasked_singleton (s : Sentence) (c : Change) : s.Unmasked [c] := by
  rintro before d after h - ⟨x, hx, -⟩
  obtain ⟨rfl, -⟩ | ⟨m, -, hm⟩ := List.cons_eq_append_iff.mp h
  · exact absurd hx List.not_mem_nil
  · exact absurd hm.symm (List.append_ne_nil_of_right_ne_nil m (List.cons_ne_nil _ _))

theorem Unmasked.append (h : s.Unmasked batch) (hc : Scheduler.mustSplit s batch c = false) :
    s.Unmasked (batch ++ [c]) := by
  intro before d after he hminus hplus
  rcases List.eq_nil_or_concat after with rfl | ⟨after, e, rfl⟩
  · obtain ⟨rfl, hd⟩ := List.append_inj' he rfl
    obtain rfl := List.singleton_inj.mp hd
    obtain ⟨x, hx, hxp⟩ := hplus
    by_contra hnone
    have hsplit : Scheduler.mustSplit s batch c = true := by
      unfold Scheduler.mustSplit
      rw [hminus, List.any_eq_true.mpr ⟨x, hx, hxp⟩, Bool.true_and, Bool.true_and, List.all_eq_true]
      exact fun y hy => decide_eq_true fun e => hnone ⟨y, hy, e⟩
    exact absurd (hc.symm.trans hsplit) Bool.false_ne_true
  · rw [List.concat_eq_append, ← List.cons_append, ← List.append_assoc] at he
    exact h before d after (List.append_inj' he rfl).1 hminus hplus

theorem Unmasked.behind {m l' : List Change} (h : s.Unmasked (before ++ other :: (m ++ c :: l')))
    (hu : ∀ x ∈ before ++ (m ++ c :: l'), x.id ≠ other.id) (hminus : (s.effect c).isMinus = true)
    (hplus : ∃ x ∈ before ++ m, (s.effect x).isPlus = true) : ∃ x ∈ before ++ m, x.id = c.id := by
  have hmem : ∀ {x}, x ∈ before ++ other :: m ↔ x = other ∨ x ∈ before ++ m := by
    intro x
    rw [List.mem_append, List.mem_append, List.mem_cons, or_left_comm]
  obtain ⟨x, hx, hxp⟩ := hplus
  obtain ⟨y, hy, hid⟩ := h (before ++ other :: m) c l' (by simp) hminus ⟨x, hmem.mpr (.inr hx), hxp⟩
  rcases hmem.mp hy with rfl | hy
  · exact absurd hid.symm (hu c (by simp))
  · exact ⟨y, hy, hid⟩

theorem Unmasked.without (h : s.Unmasked (before ++ other :: after))
    (hu : ∀ x ∈ before ++ after, x.id ≠ other.id) : s.Unmasked (before ++ after) := by
  intro l c l' he hminus hplus
  -- The change stands behind the one that was withdrawn, or in front of it.
  rcases List.append_eq_append_iff.mp he with ⟨m, rfl, rfl⟩ | ⟨m, rfl, hm⟩
  · exact h.behind hu hminus hplus
  · cases m with
    | nil =>
      rw [List.nil_append] at hm
      subst hm
      rw [List.append_nil] at h hu
      have := h.behind (m := []) hu hminus
      rw [List.append_nil] at this
      exact this hplus
    | cons d m =>
      obtain ⟨rfl, rfl⟩ := List.cons_eq_cons.mp hm
      exact h l c (m ++ other :: after) (by simp) hminus hplus

end Sentence

/-! ## Where changes lead -/

namespace Checker

variable {K : Failure → Prop} {c c' : Checker} {s : Sentence} {batch : List Change} {P P' : Pools}
  {change : Change}

/-- The checker has a rule for a sentence that is not broken, and a batch leads from its facts to some
pools, as far as its patterns go. -/
def Serves (K : Failure → Prop) (c : Checker) (s : Sentence) (batch : List Change) (P : Pools) : Prop :=
  ∃ r Q, c.rules[s.rule]? = some r ∧ r.Tenable c.engine K ∧ r.sentence = s ∧
    r.facts.pools.after? batch = some Q ∧ ∀ p ∈ s.formula.patterns, Q.pool p = P.pool p

theorem Serves.congr (h : c.Serves K s batch P) (hr : c'.rules[s.rule]? = c.rules[s.rule]?)
    (he : c'.engine = c.engine) : c'.Serves K s batch P := by
  obtain ⟨r, Q, hc, hten, hrest⟩ := h
  exact ⟨r, Q, hr.trans hc, he ▸ hten, hrest⟩

theorem Serves.of_pools (h : c.Serves K s batch P)
    (hP : ∀ p ∈ s.formula.patterns, P.pool p = P'.pool p) : c.Serves K s batch P' := by
  obtain ⟨r, Q, hc, hten, hsent, hQ, hpools⟩ := h
  exact ⟨r, Q, hc, hten, hsent, hQ, fun p hp => (hpools p hp).trans (hP p hp)⟩

/-- A change of a pattern that the rule does not have leads it nowhere. -/
theorem Serves.pass (h : c.Serves K s batch P) (hp : change.pattern ∉ s.formula.patterns) :
    c.Serves K s batch (P.step change) :=
  h.of_pools fun p hps => by
    have hne : change.pattern ≠ p := fun e => hp (e.symm ▸ hps)
    unfold Pools.step
    rw [Pools.pool_insert, if_neg hne]

theorem Serves.append (h : c.Serves K s batch P) (hp : change.pattern ∈ s.formula.patterns)
    (hv : change.isValid P = true) : c.Serves K s (batch ++ [change]) (P.step change) := by
  obtain ⟨r, Q, hc, hten, hsent, hQ, hpools⟩ := h
  refine ⟨r, Q.step change, hc, hten, hsent, Pools.after?_concat hQ ?_,
    fun p hps => Pools.pool_step_congr (hpools p hps)⟩
  rw [Pools.isValid_congr (hpools _ hp), hv]

end Checker

namespace Scheduler

/-- What a scheduler has for a rule. -/
structure Share where
  rule : Option Rule
  pending : Option (List Change)
  next : Option (List Change)

/-- The share of a rule. -/
def share (σ : Scheduler) (id : String) : Share :=
  ⟨σ.checker.rules[id]?, σ.pending[id]?, σ.next[id]?⟩

/-- Nothing but the shares of some rules changed. -/
structure AltersOnly (ids : List String) (σ σ' : Scheduler) : Prop where
  mode : σ'.mode = σ.mode
  critical : σ'.critical = σ.critical
  options : σ'.checker.options = σ.checker.options
  registry : σ'.checker.registry = σ.checker.registry
  share : ∀ id ∉ ids, σ'.share id = σ.share id

variable {K : Failure → Prop} {σ σ' σ'' : Scheduler} {s : Sentence} {P : Pools} {change : Change}
  {ids ids' : List String} {id : String}

namespace AltersOnly

theorem refl (ids : List String) (σ : Scheduler) : AltersOnly ids σ σ :=
  ⟨rfl, rfl, rfl, rfl, fun _ _ => rfl⟩

theorem trans (h : AltersOnly ids σ σ') (h' : AltersOnly ids' σ' σ'') :
    AltersOnly (ids ++ ids') σ σ'' where
  mode := h'.mode.trans h.mode
  critical := h'.critical.trans h.critical
  options := h'.options.trans h.options
  registry := h'.registry.trans h.registry
  share id hid := by
    rw [List.mem_append, not_or] at hid
    rw [h'.share id hid.2, h.share id hid.1]

theorem engine (h : AltersOnly ids σ σ') : σ'.checker.engine = σ.checker.engine := by
  unfold Checker.engine
  rw [h.registry, h.options]

theorem rules (h : AltersOnly ids σ σ') (hid : id ∉ ids) :
    σ'.checker.rules[id]? = σ.checker.rules[id]? :=
  congrArg Share.rule (h.share id hid)

theorem pending (h : AltersOnly ids σ σ') (hid : id ∉ ids) : σ'.pending[id]? = σ.pending[id]? :=
  congrArg Share.pending (h.share id hid)

theorem next (h : AltersOnly ids σ σ') (hid : id ∉ ids) : σ'.next[id]? = σ.next[id]? :=
  congrArg Share.next (h.share id hid)

theorem pendingOf (h : AltersOnly ids σ σ') (hid : id ∉ ids) :
    σ'.pendingOf id = σ.pendingOf id := by
  unfold Scheduler.pendingOf
  rw [ExtTreeMap.getD_eq_getD_getElem?, ExtTreeMap.getD_eq_getD_getElem?, h.pending hid]

theorem serves {batch : List Change} (h : AltersOnly ids σ σ') (hid : s.rule ∉ ids)
    (hs : σ.checker.Serves K s batch P) : σ'.checker.Serves K s batch P :=
  hs.congr (h.rules hid) h.engine

end AltersOnly

theorem altersOnly_insert (σ : Scheduler) (id : String) {rules : ExtTreeMap String Rule}
    {pending next : ExtTreeMap String (List Change)}
    (hr : rules = σ.checker.rules ∨ ∃ r, rules = σ.checker.rules.insert id r)
    (hp : pending = σ.pending ∨ ∃ l, pending = σ.pending.insert id l)
    (hn : next = σ.next ∨ ∃ l, next = σ.next.insert id l) :
    AltersOnly [id] σ { σ with checker := { σ.checker with rules }, pending, next } := by
  refine ⟨rfl, rfl, rfl, rfl, fun k hk => ?_⟩
  have hne : id ≠ k := fun e => hk (List.mem_singleton.mpr e.symm)
  have hsame : ∀ {ν : Type} {m m' : ExtTreeMap String ν}, (m' = m ∨ ∃ v, m' = m.insert id v) →
      m'[k]? = m[k]? := by
    rintro ν m m' (rfl | ⟨v, rfl⟩)
    · rfl
    · rw [Map.getElem?_insert, if_neg hne]
  unfold share
  rw [hsame hr, hsame hp, hsame hn]

/-! ## Taking a change -/

/-- What is left when a rule took a change. -/
structure Taken (K : Failure → Prop) (s : Sentence) (change : Change) (P : Pools) (σ : Scheduler) :
    Prop where
  serves : σ.checker.Serves K s (σ.pendingOf s.rule ++ σ.next.getD s.rule []) P
  unmasked : s.Unmasked (σ.pendingOf s.rule)
  next : σ.next[s.rule]? = none ∨ σ.next[s.rule]? = some [change]

theorem taken_of_pending {pending : ExtTreeMap String (List Change)} {l : List Change}
    (hl : σ.pending = pending.insert s.rule l) (hn : σ.next[s.rule]? = none)
    (hs : σ.checker.Serves K s l P) (hu : s.Unmasked l) : Taken K s change P σ := by
  have hpend : σ.pendingOf s.rule = l := by
    unfold pendingOf
    rw [hl, ExtTreeMap.getD_insert_self]
  have hnone : σ.next.getD s.rule [] = [] := by
    rw [ExtTreeMap.getD_eq_getD_getElem?, hn, Option.getD_none]
  refine ⟨?_, hpend ▸ hu, .inl hn⟩
  rw [hpend, hnone, List.append_nil]
  exact hs

theorem taken_of_next (hn : σ.next[s.rule]? = none)
    (hs : σ.checker.Serves K s (σ.pendingOf s.rule ++ [change]) P) (hu : s.Unmasked (σ.pendingOf s.rule)) :
    Taken K s change P
      { σ with next := σ.next.insert s.rule (σ.next.getD s.rule [] ++ [change]) } := by
  have hnone : σ.next.getD s.rule [] = [] := by
    rw [ExtTreeMap.getD_eq_getD_getElem?, hn, Option.getD_none]
  rw [hnone]
  refine ⟨?_, hu, .inr ExtTreeMap.getElem?_insert_self⟩
  rw [ExtTreeMap.getD_insert_self]
  exact hs

section Take

variable {r : Rule} {t : Scheduler}

theorem take_of_empty (ht : t.bare = σ.bare) (hempty : (σ.pendingOf id).isEmpty = true) :
    take id change t = append id change t := by
  unfold take
  rw [Routine.get_bind, pendingOf_eq_of_bare ht, if_pos hempty]

variable (ht : t.bare = σ.bare) (hempty : ¬(σ.pendingOf id).isEmpty = true)
  (hr : σ.checker.rules[id]? = some r)

include ht hempty hr

theorem take_of_mustSplit (hsplit : mustSplit r.sentence (σ.pendingOf id) change = true) :
    take id change t = (do
      onChecker (Checker.note .debug s!"rule `{id}`: {change.render} starts a new batch")
      startNext id change) t := by
  have hrule : t.checker.rule id = .ok r := by
    unfold Checker.rule
    rw [Checker.rules_eq_of_bare (checker_eq_of_bare ht), hr]
  unfold take
  rw [Routine.get_bind, pendingOf_eq_of_bare ht, if_neg hempty,
    Routine.bind_ok (Routine.ofExcept_ok hrule t), if_pos hsplit]

theorem take_of_not_mustSplit (hsplit : ¬mustSplit r.sentence (σ.pendingOf id) change = true) :
    take id change t = (do if !(← merge id change) then append id change) t := by
  have hrule : t.checker.rule id = .ok r := by
    unfold Checker.rule
    rw [Checker.rules_eq_of_bare (checker_eq_of_bare ht), hr]
  unfold take
  rw [Routine.get_bind, pendingOf_eq_of_bare ht, if_neg hempty,
    Routine.bind_ok (Routine.ofExcept_ok hrule t), if_neg hsplit]

end Take

/-- **A change is taken**: appended, kept for the next batch, or merged away. -/
theorem take_does (hK : Failure.CrashClosed K)
    (hf : σ.checker.registry.FailsIn K s.formula)
    (h : σ.checker.Serves K s (σ.pendingOf s.rule) P) (hp : change.pattern ∈ s.formula.patterns)
    (hv : change.isValid P = true) (hu : s.Unmasked (σ.pendingOf s.rule))
    (hn : σ.next[s.rule]? = none) :
    (∃ σ', Does (take s.rule change) σ ⟨⟩ σ' ∧ AltersOnly [s.rule] σ σ' ∧
      Taken K s change (P.step change) σ') ∨ Falls K (take s.rule change) σ := by
  have happend : s.Unmasked (σ.pendingOf s.rule ++ [change]) → Taken K s change (P.step change)
      { σ with pending := σ.pending.insert s.rule (σ.pendingOf s.rule ++ [change]) } :=
    taken_of_pending rfl hn (h.append hp hv)
  have halters := altersOnly_insert σ s.rule (.inl rfl)
    (.inr ⟨σ.pendingOf s.rule ++ [change], rfl⟩) (.inl rfl)
  by_cases hempty : (σ.pendingOf s.rule).isEmpty = true
  · refine .inl ⟨_, fun t ht => ?_, halters, happend ?_⟩
    · rw [take_of_empty ht hempty]
      exact does_append _ _ σ t ht
    · rw [List.isEmpty_iff.mp hempty]
      exact s.unmasked_singleton change
  obtain ⟨r, Q, hr, hten, rfl, hQ, hpools⟩ := id h
  by_cases hsplit : mustSplit r.sentence (σ.pendingOf r.id) change = true
  · refine .inl ⟨_, fun t ht => ?_, altersOnly_insert σ r.id (.inl rfl) (.inl rfl) (.inr ⟨_, rfl⟩),
      taken_of_next hn (h.append hp hv) hu⟩
    rw [take_of_mustSplit ht hempty hr hsplit]
    exact (does_onChecker (Checker.does_note _ _ _)).bind (does_startNext _ _ σ) t ht
  have htake := fun t ht => take_of_not_mustSplit (t := t) ht hempty hr hsplit
  have hv' : change.isValid Q = true := Pools.isValid_congr (hpools _ hp) ▸ hv
  rcases merge_does hK hr hten hf hQ hv' with
    (hm | ⟨before, other, after, r', Q', hpend, huntouched, hm, hs', hsent', hQ', ha⟩) | hfalls
  · refine .inl ⟨_, fun t ht => ?_, halters, happend (hu.append (Bool.not_eq_true _ ▸ hsplit))⟩
    rw [htake t ht]
    exact hm.bind (does_append _ _ σ) t ht
  · refine .inl ⟨_, fun t ht => ?_,
      altersOnly_insert σ r.id (.inr ⟨r', rfl⟩) (.inr ⟨_, rfl⟩) (.inl rfl),
      taken_of_pending rfl hn ?_ ((hpend ▸ hu).without huntouched)⟩
    · rw [htake t ht]
      exact hm.bind (f := fun b => if !b then append r.id change else pure ⟨⟩) (does_pure _ _) t ht
    · exact ⟨r', Q', ExtTreeMap.getElem?_insert_self, .inl hs', hsent', hQ',
        fun p hps => (ha.pool p).trans (Pools.pool_step_congr (hpools p hps))⟩
  · refine .inr fun t ht => ?_
    rw [htake t ht]
    exact hfalls.bind _ t ht

end Scheduler

end RuleMonitor
