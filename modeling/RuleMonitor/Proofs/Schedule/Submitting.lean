import RuleMonitor.Proofs.Schedule.Taking

/-!
# Submitting batches

Work on the stream comes in two parts. First a change is taken in, which says what batches are due; then
these are submitted, one after the other. A batch that is submitted leads its rule on, and no other rule
notices.

* `Scheduler.Reported`: what is reported on a batch; `Scheduler.Submitted`: what many batches leave.
* **`Scheduler.submitAll_does`**: many batches are submitted.
* `Scheduler.intake`: a change taken in; **`Scheduler.schedule_agrees`**: what is due is then submitted.
* **`Scheduler.takes_does`**: many rules take a change.
-/

namespace RuleMonitor

open Std (ExtTreeMap)

namespace Checker

variable {K : Failure → Prop} {c : Checker} {s : Sentence} {batch later : List Change} {P : Pools}

/-- **A batch is checked**, and what comes later leads on from there. -/
theorem Serves.checkBatch (hK : Failure.CrashClosed K)
    (hf : c.registry.FailsIn K s.formula) (h : c.Serves K s (batch ++ later) P) :
    (∃ r r', c.rules[s.rule]? = some r ∧ r.facts.pools.after? batch = some r'.facts.pools ∧
      r'.Tenable c.engine K ∧ r'.sentence = r.sentence ∧
      Does (checkBatch s.rule batch) c r'.report { c with rules := c.rules.insert s.rule r' } ∧
      ∀ s' later P, s'.rule = s.rule → c.Serves K s' (batch ++ later) P →
        ({ c with rules := c.rules.insert s.rule r' } : Checker).Serves K s' later P) ∨
    Falls K (checkBatch s.rule batch) c := by
  obtain ⟨r, Q, hr, hten, hsent, hQ, -⟩ := h
  rw [Pools.after?_append] at hQ
  obtain ⟨Q₁, hQ₁, -⟩ := Option.bind_eq_some_iff.mp hQ
  refine (checkBatch_tenable_or_falls hK hr hten (hsent ▸ hf) hQ₁).imp_left ?_
  rintro ⟨r', hdoes, hten', hsent', rfl, -⟩
  refine ⟨r, r', hr, hQ₁, hten', hsent', hdoes, fun s' later' P' hid h' => ?_⟩
  obtain ⟨r₀, Q', hr₀, -, hsent₀, hQ', hpools'⟩ := h'
  obtain rfl := Option.some.inj (hr.symm.trans (hid ▸ hr₀))
  rw [Pools.after?_append, hQ₁] at hQ'
  exact ⟨r', Q', hid ▸ ExtTreeMap.getElem?_insert_self, hten', hsent'.trans hsent₀, hQ', hpools'⟩

end Checker

namespace Scheduler

variable {K : Failure → Prop} {σ σ' : Scheduler} {s : Sentence} {P : Pools} {change : Change}

/-! ## Batches that are due -/

/-- The report on a batch is the one of its rule after a cycle on the batch. -/
def Reported (K : Failure → Prop) (c : Checker) (b : String × List Change) (report : Report) : Prop :=
  ∃ r r' : Rule, c.rules[b.1]? = some r ∧ r.facts.pools.after? b.2 = some r'.facts.pools ∧
    r'.Tenable c.engine K ∧ r'.sentence = r.sentence ∧ report = r'.report

/-- A batch leads from the facts of some rule to pools, with what comes later. -/
def Due (K : Failure → Prop) (c : Checker) (b : String × List Change) : Prop :=
  ∃ s later P, s.rule = b.1 ∧ c.registry.FailsIn K s.formula ∧ c.Serves K s (b.2 ++ later) P

/-- Batches were submitted, each to a rule of its own, and left the rules as they are now. -/
structure Submitted (K : Failure → Prop) (σ : Scheduler) (due : List (String × List Change))
    (reports : List Report) (rules : ExtTreeMap String Rule) : Prop where
  does : Does (submitAll due) σ reports { σ with checker := { σ.checker with rules } }
  others : ∀ id ∉ due.map Prod.fst, rules[id]? = σ.checker.rules[id]?
  serves : ∀ s batch later P, (s.rule, batch) ∈ due → σ.checker.Serves K s (batch ++ later) P →
    ({ σ.checker with rules } : Checker).Serves K s later P
  reported : List.Forall₂ (Reported K σ.checker) (due.filter fun b => !b.2.isEmpty) reports

section Submitted

variable {rule : String} {batch : List Change} {due : List (String × List Change)} {reports : List Report}
  {rules : ExtTreeMap String Rule}

theorem Submitted.skip (h : Submitted K σ due reports rules) (hrule : rule ∉ due.map Prod.fst) :
    Submitted K σ ((rule, []) :: due) reports rules where
  does := h.does
  others id hid := h.others id fun hmem => hid (List.mem_cons_of_mem _ hmem)
  serves s batch later P hmem hs := by
    rcases List.mem_cons.mp hmem with e | hmem
    · obtain ⟨hid, rfl⟩ := Prod.mk.inj e
      exact hs.congr (h.others _ (hid.symm ▸ hrule)) rfl
    · exact h.serves s batch later P hmem hs
  reported := h.reported

theorem Submitted.cons {r r' : Rule} (hne : batch.isEmpty = false) (hrule : rule ∉ due.map Prod.fst)
    (hr : σ.checker.rules[rule]? = some r) (hafter : r.facts.pools.after? batch = some r'.facts.pools)
    (hten : r'.Tenable σ.checker.engine K) (hsent : r'.sentence = r.sentence)
    (hdoes : Checker.Does (Checker.checkBatch rule batch) σ.checker r'.report
      { σ.checker with rules := σ.checker.rules.insert rule r' })
    (hled : ∀ s later P, s.rule = rule → σ.checker.Serves K s (batch ++ later) P →
      ({ σ.checker with rules := σ.checker.rules.insert rule r' } : Checker).Serves K s later P)
    (h : Submitted K { σ with checker := { σ.checker with rules := σ.checker.rules.insert rule r' } } due
      reports rules) :
    Submitted K σ ((rule, batch) :: due) (r'.report :: reports) rules := by
  have hrules : ∀ id ≠ rule, (σ.checker.rules.insert rule r')[id]? = σ.checker.rules[id]? := fun id hid => by
    rw [Map.getElem?_insert, if_neg (Ne.symm hid)]
  have hother : ∀ b ∈ due, b.1 ≠ rule := fun b hb e => hrule (List.mem_map.mpr ⟨b, hb, e⟩)
  refine ⟨?_, fun id hid => ?_, fun s batch' later P hmem hs => ?_, ?_⟩
  · unfold submitAll
    rw [if_neg (Bool.eq_false_iff.mp hne)]
    refine (does_onChecker ((Checker.does_count _ _ _).bind hdoes)).bind ?_
    exact h.does.bind (does_pure _ _)
  · rw [List.map_cons, List.mem_cons, not_or] at hid
    rw [h.others id hid.2]
    exact hrules id hid.1
  · rcases List.mem_cons.mp hmem with e | hmem
    · obtain ⟨hid, rfl⟩ := Prod.mk.inj e
      exact (hled s later P hid hs).congr (h.others _ (hid.symm ▸ hrule)) rfl
    · exact h.serves s batch' later P hmem (hs.congr (hrules _ (hother _ hmem)) rfl)
  · rw [List.filter_cons_of_pos (by rw [hne]; rfl)]
    refine .cons ⟨r, r', hr, hafter, hten, hsent, rfl⟩ ?_
    refine (List.forall₂_and_left _ _ |>.mpr ⟨fun b hb => hother b (List.mem_of_mem_filter hb),
      h.reported⟩).imp ?_
    rintro b report ⟨hb, r₁, r₂, hr₁, hrest⟩
    exact ⟨r₁, r₂, (hrules _ hb).symm.trans hr₁, hrest⟩

end Submitted

/-- **Many batches**, each for a rule of its own. -/
theorem submitAll_does (hK : Failure.CrashClosed K)
    {due : List (String × List Change)} :
    ∀ {σ : Scheduler}, (due.map Prod.fst).Nodup → (∀ b ∈ due, Due K σ.checker b) →
    (∃ reports rules, Submitted K σ due reports rules) ∨ Falls K (submitAll due) σ := by
  induction due with
  | nil =>
    exact fun {σ} _ _ => .inl ⟨[], σ.checker.rules, does_pure [] σ, fun _ _ => rfl, nofun, .nil⟩
  | cons b due ih =>
    intro σ hnodup hdue
    obtain ⟨rule, batch⟩ := b
    rw [List.map_cons, List.nodup_cons] at hnodup
    rw [List.forall_mem_cons] at hdue
    obtain ⟨⟨s, later, P, rfl, hf, hs⟩, hdue⟩ := hdue
    cases hempty : batch.isEmpty with
    | true =>
      obtain rfl := List.isEmpty_iff.mp hempty
      exact (ih hnodup.2 hdue).imp_left fun ⟨reports, rules, h⟩ => ⟨reports, rules, h.skip hnodup.1⟩
    | false =>
      have hsubmit : submitAll ((s.rule, batch) :: due) = submit s.rule batch >>= fun report => do
          let reports ← submitAll due
          return report :: reports := by
        rw [submitAll, if_neg (Bool.eq_false_iff.mp hempty)]
      rcases hs.checkBatch hK hf with ⟨r, r', hr, hafter, hten, hsent, hdoes, hled⟩ | hfalls
      swap
      · rw [hsubmit]
        exact .inr ((falls_onChecker ((Checker.does_count _ _ _).bind_falls hfalls)).bind _)
      have hdue' : ∀ b ∈ due, Due K { σ.checker with rules := σ.checker.rules.insert s.rule r' } b := by
        intro b hb
        obtain ⟨s', later', P', hid, hf', hs'⟩ := hdue b hb
        have hne : s'.rule ≠ s.rule := fun e => hnodup.1 (List.mem_map.mpr ⟨b, hb, hid.symm.trans e⟩)
        refine ⟨s', later', P', hid, hf', hs'.congr ?_ rfl⟩
        exact (Map.getElem?_insert ..).trans (if_neg (Ne.symm hne))
      rcases ih (σ := { σ with checker := { σ.checker with rules := σ.checker.rules.insert s.rule r' } })
        hnodup.2 hdue' with ⟨reports, rules, h⟩ | hfalls
      · exact .inl ⟨_, rules, h.cons hempty hnodup.1 hr hafter hten hsent hdoes hled⟩
      · rw [hsubmit]
        exact .inr ((does_onChecker ((Checker.does_count _ _ _).bind hdoes)).bind_falls (hfalls.bind _))

/-! ## Taking a change in -/

/-- A rule can take a change. -/
structure Ready (K : Failure → Prop) (s : Sentence) (change : Change) (P : Pools) (σ : Scheduler) :
    Prop where
  failsIn : σ.checker.registry.FailsIn K s.formula
  serves : σ.checker.Serves K s (σ.pendingOf s.rule) P
  mem : change.pattern ∈ s.formula.patterns
  valid : change.isValid P = true
  unmasked : s.Unmasked (σ.pendingOf s.rule)
  next : σ.next[s.rule]? = none

theorem Ready.alter {ids : List String} (h : Ready K s change P σ) (ha : AltersOnly ids σ σ')
    (hid : s.rule ∉ ids) : Ready K s change P σ' where
  failsIn := ha.registry ▸ h.failsIn
  serves := ha.pendingOf hid ▸ ha.serves hid h.serves
  mem := h.mem
  valid := h.valid
  unmasked := ha.pendingOf hid ▸ h.unmasked
  next := (ha.next hid).trans h.next

theorem Taken.alter {ids : List String} (h : Taken K s change P σ) (ha : AltersOnly ids σ σ')
    (hid : s.rule ∉ ids) : Taken K s change P σ' where
  serves := by
    rw [ha.pendingOf hid, ExtTreeMap.getD_eq_getD_getElem?, ha.next hid,
      ← ExtTreeMap.getD_eq_getD_getElem?]
    exact ha.serves hid h.serves
  unmasked := ha.pendingOf hid ▸ h.unmasked
  next := ha.next hid ▸ h.next

/-- **Many rules** take a change. -/
theorem takes_does (hK : Failure.CrashClosed K) (change : Change)
    {P : Sentence → Pools} {ss : List Sentence} :
    ∀ {σ : Scheduler}, (ss.map fun s => s.rule).Nodup → (∀ s ∈ ss, Ready K s change (P s) σ) →
    (∃ σ', Does ((ss.map fun s => s.rule).forM fun rule => take rule change) σ ⟨⟩ σ' ∧
      AltersOnly (ss.map fun s => s.rule) σ σ' ∧
      ∀ s ∈ ss, Taken K s change ((P s).step change) σ') ∨
    Falls K ((ss.map fun s => s.rule).forM fun rule => take rule change) σ := by
  induction ss with
  | nil => exact fun {σ} _ _ => .inl ⟨σ, does_pure _ σ, .refl _ σ, nofun⟩
  | cons s ss ih =>
    intro σ hnodup hready
    rw [List.map_cons, List.nodup_cons] at hnodup
    rw [List.forall_mem_cons] at hready
    obtain ⟨hs, hready⟩ := hready
    rcases take_does hK hs.failsIn hs.serves hs.mem hs.valid hs.unmasked hs.next with
      ⟨σ₁, hdoes, halters, htaken⟩ | hfalls
    swap
    · exact .inr (hfalls.bind _)
    have hready' : ∀ s' ∈ ss, Ready K s' change (P s') σ₁ := fun s' hs' =>
      (hready s' hs').alter halters fun hmem =>
        hnodup.1 (List.mem_map.mpr ⟨s', hs', List.mem_singleton.mp hmem⟩)
    rcases ih hnodup.2 hready' with ⟨σ₂, hrest, halters', htakens⟩ | hfalls
    · refine .inl ⟨σ₂, hdoes.bind hrest, halters.trans halters', ?_⟩
      rw [List.forall_mem_cons]
      exact ⟨htaken.alter halters' hnodup.1, htakens⟩
    · exact .inr (hdoes.bind_falls hfalls)

/-- Makes the next batches the pending ones, and answers those that were pending. -/
def turnOver : Routine Scheduler (List (String × List Change)) := do
  let s ← get
  set { s with pending := s.pending.insertMany s.next.toList, next := ∅ }
  return s.next.toList.map fun e => (e.1, s.pendingOf e.1)

/-- Takes in a change, and answers the batches that are then due. -/
def intake (change : Change) : Routine Scheduler (List (String × List Change)) := do
  let rules := (← get).checker.rulesOver change.pattern
  match (← get).mode with
  | .immediate => return rules.map fun rule => (rule, [change])
  | .batched =>
    rules.forM fun rule => take rule change
    turnOver

theorem submit_cases (rule : String) (batch : List Change) (σ : Scheduler) :
    (∃ report c, ∀ pending,
      submit rule batch { σ with pending } = .ok report { σ with checker := c, pending }) ∨
    ∃ e c, ∀ pending, submit rule batch { σ with pending } = .error e { σ with checker := c, pending } := by
  unfold submit onChecker
  cases h : (do
    Checker.count "batches" 1
    Checker.checkBatch rule batch : Routine Checker Report) σ.checker with
  | ok report c => exact .inl ⟨report, c, fun _ => Routine.onPart_ok h⟩
  | error e c => exact .inr ⟨e, c, fun _ => Routine.onPart_error h⟩

/-- The next batches take the place of the pending ones as these are submitted, or before that. -/
theorem submitNext_agrees : ∀ {next : List (String × List Change)} {σ : Scheduler},
    (next.map Prod.fst).Nodup →
    (∃ reports τ, submitNext next σ = .ok reports τ ∧
      submitAll (next.map fun e => (e.1, σ.pendingOf e.1))
        { σ with pending := σ.pending.insertMany next } = .ok reports τ) ∨
    ∃ e τ τ', submitNext next σ = .error e τ ∧
      submitAll (next.map fun e => (e.1, σ.pendingOf e.1))
        { σ with pending := σ.pending.insertMany next } = .error e τ' := by
  intro next
  induction next with
  | nil => exact fun {σ} _ => .inl ⟨[], σ, rfl, rfl⟩
  | cons e next ih =>
    obtain ⟨rule, batch⟩ := e
    intro σ hnodup
    rw [List.map_cons, List.nodup_cons] at hnodup
    let σ₁ : Scheduler := { σ with pending := σ.pending.insert rule batch }
    have hmap : (next.map fun e => (e.1, σ.pendingOf e.1)) =
        next.map fun e => (e.1, σ₁.pendingOf e.1) :=
      List.map_congr_left fun e he => by
        have hne : rule ≠ e.1 := fun h => hnodup.1 (List.mem_map.mpr ⟨e, he, h.symm⟩)
        have hsame : σ₁.pendingOf e.1 = σ.pendingOf e.1 := by
          unfold pendingOf
          rw [ExtTreeMap.getD_eq_getD_getElem?, ExtTreeMap.getD_eq_getD_getElem?]
          exact congrArg (Option.getD · []) ((Map.getElem?_insert _ _ _ _).trans (if_neg hne))
        rw [hsame]
    rw [List.map_cons, ExtTreeMap.insertMany_cons, hmap]
    unfold submitAll submitNext
    rw [Routine.get_bind, Routine.set_bind]
    split_ifs with hempty
    · exact ih (σ := σ₁) hnodup.2
    -- What is pending does not matter to the batch that is submitted first.
    rcases submit_cases rule (σ.pendingOf rule) σ₁ with ⟨report, c, hc⟩ | ⟨e, c, hc⟩
    · have hfirst := hc σ₁.pending
      have hall := hc (σ₁.pending.insertMany next)
      rcases ih (σ := { σ₁ with checker := c }) hnodup.2 with ⟨reports, τ, h, h'⟩ | ⟨e, τ, τ', h, h'⟩
      · exact .inl ⟨report :: reports, τ, (Routine.bind_ok hfirst).trans (Routine.bind_ok h),
          (Routine.bind_ok hall).trans (Routine.bind_ok h')⟩
      · exact .inr ⟨e, τ, τ', (Routine.bind_ok hfirst).trans (Routine.bind_error h),
          (Routine.bind_ok hall).trans (Routine.bind_error h')⟩
    · exact .inr ⟨e, _, _, Routine.bind_error (hc σ₁.pending),
        Routine.bind_error (hc (σ₁.pending.insertMany next))⟩

theorem intake_of_immediate (h : σ.mode = .immediate) : intake change σ =
    .ok ((σ.checker.rulesOver change.pattern).map fun rule => (rule, [change])) σ := by
  unfold intake
  rw [Routine.get_bind, Routine.get_bind, h]
  rfl

theorem intake_of_batched (h : σ.mode = .batched) : intake change σ =
    ((σ.checker.rulesOver change.pattern).forM (fun rule => take rule change) >>=
      fun _ => turnOver) σ := by
  unfold intake
  rw [Routine.get_bind, Routine.get_bind, h]

/-- **A change is scheduled** by being taken in and submitting what is due, whether that succeeds or not. -/
theorem schedule_agrees (change : Change) (σ : Scheduler) :
    (∃ reports τ, schedule change σ = .ok reports τ ∧ (intake change >>= submitAll) σ = .ok reports τ) ∨
    ∃ e τ τ', schedule change σ = .error e τ ∧ (intake change >>= submitAll) σ = .error e τ' := by
  cases hm : σ.mode with
  | immediate =>
    have hsame : schedule change σ = (intake change >>= submitAll) σ := by
      rw [Routine.bind_ok (intake_of_immediate hm)]
      unfold schedule
      rw [Routine.get_bind, Routine.get_bind, hm]
    rw [← hsame]
    cases h : schedule change σ with
    | ok reports τ => exact .inl ⟨reports, τ, rfl, rfl⟩
    | error e τ => exact .inr ⟨e, τ, τ, rfl, rfl⟩
  | batched =>
    unfold schedule
    rw [Routine.get_bind, Routine.get_bind, hm]
    cases htakes : (σ.checker.rulesOver change.pattern).forM (fun rule => take rule change) σ with
    | error e τ =>
      have hintake : intake change σ = .error e τ :=
        (intake_of_batched hm).trans (Routine.bind_error htakes)
      exact .inr ⟨e, τ, τ, Routine.bind_error htakes, Routine.bind_error hintake⟩
    | ok u σ₁ =>
      have hintake : intake change σ = .ok (σ₁.next.toList.map fun e => (e.1, σ₁.pendingOf e.1))
          { σ₁ with pending := σ₁.pending.insertMany σ₁.next.toList, next := ∅ } :=
        (intake_of_batched hm).trans (Routine.bind_ok htakes)
      rw [Routine.bind_ok hintake]
      dsimp only
      rw [Routine.bind_ok htakes, Routine.get_bind, Routine.modify_bind]
      exact submitNext_agrees (σ := { σ₁ with next := ∅ }) (Map.nodup_map_fst_toList _)

theorem schedule_eq_ok {reports : List Report} : schedule change σ = .ok reports σ' ↔
    ∃ due σ₁, intake change σ = .ok due σ₁ ∧ submitAll due σ₁ = .ok reports σ' := by
  rw [← Routine.bind_eq_ok]
  rcases schedule_agrees change σ with ⟨reports, τ, h, h'⟩ | ⟨e, τ, τ', h, h'⟩
  · rw [h, h']
  · rw [h, h']
    exact ⟨fun h => (by cases h), fun h => (by cases h)⟩

/-- A part of the work fails on a scheduler, with more than a predicate. -/
def FallsAt {α : Type} (K : Failure → Prop) (x : Routine Scheduler α) (σ : Scheduler) : Prop :=
  ∃ e σ', x σ = .error e σ' ∧ Failure.Serious K e

section FallsAt

variable {α β : Type} {x : Routine Scheduler α} {f : α → Routine Scheduler β}

theorem FallsAt.bind (h : FallsAt K x σ) (f : α → Routine Scheduler β) : FallsAt K (x >>= f) σ := by
  obtain ⟨e, σ', hx, he⟩ := h
  exact ⟨e, σ', Routine.bind_error hx, he⟩

theorem fallsAt_bind {a : α} (hx : x σ = .ok a σ') (hf : FallsAt K (f a) σ') :
    FallsAt K (x >>= f) σ := by
  obtain ⟨e, σ₂, h, he⟩ := hf
  exact ⟨e, σ₂, (Routine.bind_ok hx).trans h, he⟩

theorem not_fallsAt (hK : ∀ e, K e → e.isPredicate = true) : ¬FallsAt K x σ :=
  fun ⟨e, _, _, he⟩ => Failure.not_serious hK e he

end FallsAt

/-- A change that cannot be taken in, or makes a batch due that cannot be submitted. -/
theorem fallsAt_schedule (h : FallsAt K (intake change >>= submitAll) σ) :
    FallsAt K (schedule change) σ := by
  obtain ⟨e, τ, herror, he⟩ := h
  rcases schedule_agrees change σ with ⟨reports, τ', -, h'⟩ | ⟨e', τ', τ'', h, h'⟩
  · exact nomatch herror.symm.trans h'
  · obtain ⟨rfl, -⟩ := EStateM.Result.error.inj (herror.symm.trans h')
    exact ⟨e, τ', h, he⟩

end Scheduler

end RuleMonitor
