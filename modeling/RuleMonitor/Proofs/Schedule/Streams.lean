import RuleMonitor.Proofs.Schedule.Submitting

/-!
# Streams

Rules are registered, changes are scheduled, contexts become critical, and what waits is flushed, in any
order. At any time the pending batch of each rule leads from its facts to the pools that all changes so
far lead to, so that nothing that waits is lost, and nothing is seen twice.

* `Event`, `Stream`: what happens to a scheduler, and where it leads.
* `Scheduler.Tracks`: what holds between two events, and before batches that are due are submitted.
* `Scheduler.Tracks.intake`, `Scheduler.Tracks.submitAll`: the two parts of an event.
* **`Scheduler.batches_refine`**: batches come to what changes come to one by one.
-/

namespace RuleMonitor

open Std (ExtTreeMap)

/-! ## Events -/

/-- What happens to a scheduler. -/
inductive Event where
  /-- A rule is registered over facts. -/
  | register (s : Sentence) (facts : List Change)
  /-- A change is scheduled. -/
  | schedule (change : Change)
  /-- A context is never merged from now on. -/
  | critical (id : Nat)
  /-- All that waits is submitted. -/
  | flush

/-- The sentences registered so far, and the pools that the changes so far lead to. -/
structure Ledger where
  rules : List Sentence := []
  pools : Pools := ∅

/-- The facts lead to the pools, as far as the patterns of the sentence go. -/
def Sentence.SeededBy (s : Sentence) (facts : List Change) (P : Pools) : Prop :=
  ∃ Q, (∅ : Pools).after? (facts.filter fun f => s.mentions f.pattern) = some Q ∧
    ∀ p ∈ s.formula.patterns, Q.pool p = P.pool p

/-- A valid event leads from one ledger to another. New rules have an identifier of their own, and start
from a snapshot of the live contexts. -/
inductive Event.Leads (Admits : Sentence → Prop) : Event → Ledger → Ledger → Prop
  | register {s : Sentence} {facts : List Change} {L : Ledger} (accepted : Admits s)
      (fresh : ∀ s' ∈ L.rules, s'.rule ≠ s.rule) (snapshot : s.SeededBy facts L.pools) :
      Leads Admits (.register s facts) L { L with rules := s :: L.rules }
  | schedule {change : Change} {L : Ledger} (valid : change.isValid L.pools = true) :
      Leads Admits (.schedule change) L { L with pools := L.pools.step change }
  | critical (id : Nat) (L : Ledger) : Leads Admits (.critical id) L L
  | flush (L : Ledger) : Leads Admits .flush L L

/-- Valid events lead from one ledger to another. -/
inductive Stream (Admits : Sentence → Prop) : Ledger → List Event → Ledger → Prop
  | nil (L : Ledger) : Stream Admits L [] L
  | cons {e : Event} {es : List Event} {L L₁ L₂ : Ledger} (first : e.Leads Admits L L₁)
      (rest : Stream Admits L₁ es L₂) : Stream Admits L (e :: es) L₂

theorem Event.Leads.admits {Admits : Sentence → Prop} {e : Event} {L L' : Ledger}
    (h : e.Leads Admits L L') (hL : ∀ s ∈ L.rules, Admits s) : ∀ s ∈ L'.rules, Admits s := by
  cases h with
  | register accepted => exact List.forall_mem_cons.mpr ⟨accepted, hL⟩
  | schedule | critical | flush => exact hL

theorem Stream.admits {Admits : Sentence → Prop} {es : List Event} {L L' : Ledger}
    (h : Stream Admits L es L') (hL : ∀ s ∈ L.rules, Admits s) : ∀ s ∈ L'.rules, Admits s := by
  induction h with
  | nil => exact hL
  | cons first _ ih => exact ih (first.admits hL)

namespace Registry

variable {reg : Registry} {s : Sentence}

/-- The sentence is well formed, and its predicates never fail. -/
def Accepts (reg : Registry) (s : Sentence) : Prop :=
  (∃ (d : Draft) (root : Nat), d.build root = .ok s) ∧ reg.Decides s.formula

theorem Accepts.admits (h : reg.Accepts s) (K : Failure → Prop) :
    s.WellFormed ∧ reg.FailsIn K s.formula := by
  obtain ⟨⟨d, root, hs⟩, hd⟩ := h
  exact ⟨Sentence.wellFormed_of_build hs, hd.failsIn K⟩

end Registry

/-- The change is valid on the pools of each sentence that quantifies over its pattern. -/
def Change.Fits (change : Change) (rules : List Sentence) (P : Sentence → Pools) : Prop :=
  ∀ s ∈ rules, change.pattern ∈ s.formula.patterns → change.isValid (P s) = true

namespace Event

/-- Lets an event happen, and reports on the batches that it made due. -/
def perform : Event → Routine Scheduler (List Report)
  | register s facts => do
    let _ ← Scheduler.onChecker (Checker.addRule s facts)
    return []
  | schedule change => Scheduler.schedule change
  | critical id => do
    modify fun σ => σ.addCritical id
    return []
  | flush => Scheduler.flush

/-- Lets an event happen up to the point where batches are submitted, and answers those that are due. -/
def intake : Event → Routine Scheduler (List (String × List Change))
  | register s facts => do
    let _ ← Scheduler.onChecker (Checker.addRule s facts)
    return []
  | schedule change => Scheduler.intake change
  | critical id => do
    modify fun σ => σ.addCritical id
    return []
  | flush => do
    let due := (← get).pending.toList
    modify fun σ => { σ with pending := ∅ }
    return due

/-- **An event happens** by being taken in and submitting what is due. -/
theorem perform_eq_ok {e : Event} {σ σ' : Scheduler} {reports : List Report} :
    e.perform σ = .ok reports σ' ↔
      ∃ due σ₁, e.intake σ = .ok due σ₁ ∧ Scheduler.submitAll due σ₁ = .ok reports σ' := by
  cases e with
  | register s facts =>
    constructor
    · intro h
      obtain ⟨report, σ₂, hadd, h⟩ := Routine.bind_eq_ok.mp h
      cases h
      exact ⟨[], σ', Routine.bind_ok hadd, rfl⟩
    · rintro ⟨due, σ₁, h, h'⟩
      obtain ⟨report, σ₂, hadd, h⟩ := Routine.bind_eq_ok.mp h
      cases h
      cases h'
      exact Routine.bind_ok hadd
  | schedule change => exact Scheduler.schedule_eq_ok
  | critical id => exact ⟨fun h => ⟨[], _, rfl, h⟩, fun ⟨_, _, h, h'⟩ => by cases h; exact h'⟩
  | flush => exact ⟨fun h => ⟨_, _, rfl, h⟩, fun ⟨_, _, h, h'⟩ => by cases h; exact h'⟩

end Event

namespace Scheduler

/-- Lets events happen in order. -/
def performAll : List Event → Routine Scheduler (List Report)
  | [] => return []
  | e :: es => do
    let reports ← e.perform
    let more ← performAll es
    return reports ++ more

/-- A scheduler without rules. -/
def start (mode : SchedulingMode) (options : CheckerOptions) (registry : Registry) : Scheduler where
  mode
  checker := { options, registry }

/-! ## Between events -/

/-- The rules are those of some sentences, and what waits for each of them, with what is due, leads to the
pools that the sentence is tracked to. -/
structure Tracks (reg : Registry) (K : Failure → Prop) (rules : List Sentence) (P : Sentence → Pools)
    (due : List (String × List Change)) (σ : Scheduler) : Prop where
  registry : σ.checker.registry = reg
  failsIn : ∀ s ∈ rules, reg.FailsIn K s.formula
  distinct : (rules.map fun s => s.rule).Nodup
  /-- Rules and what waits for them are those of the sentences. -/
  known : ∀ id r, σ.checker.rules[id]? = some r → ∃ s ∈ rules, s.rule = id
  waiting : ∀ id l, σ.pending[id]? = some l → ∃ s ∈ rules, s.rule = id
  /-- No next batch waits between two events. -/
  next : σ.next = ∅
  immediate : σ.mode = .immediate → σ.pending = ∅
  unmasked : ∀ s ∈ rules, s.Unmasked (σ.pendingOf s.rule)
  /-- Each rule has one batch that is due, at most. -/
  distinctDue : (due.map Prod.fst).Nodup
  owed : ∀ b ∈ due, ∃ s ∈ rules, s.rule = b.1 ∧ s.Unmasked b.2
  servesDue : ∀ s ∈ rules, ∀ batch, (s.rule, batch) ∈ due →
    σ.checker.Serves K s (batch ++ σ.pendingOf s.rule) (P s)
  serves : ∀ s ∈ rules, s.rule ∉ due.map Prod.fst →
    σ.checker.Serves K s (σ.pendingOf s.rule) (P s)

variable {reg : Registry} {K : Failure → Prop} {rules : List Sentence} {P : Sentence → Pools}
  {L L' : Ledger} {σ σ' : Scheduler} {change : Change} {due : List (String × List Change)} {s : Sentence}

theorem Tracks.of_bare (h : Tracks reg K rules P due σ) (hb : σ'.bare = σ.bare) :
    Tracks reg K rules P due σ' := by
  have hc := checker_eq_of_bare hb
  have hrules := Checker.rules_eq_of_bare hc
  have hpending := pending_eq_of_bare hb
  have hserves : ∀ {s batch P}, σ.checker.Serves K s batch P →
      σ'.checker.Serves K s batch P := fun hs =>
    hs.congr (congrArg (·[_]?) hrules) (Checker.engine_eq_of_bare hc)
  exact {
    registry := (Checker.registry_eq_of_bare hc).trans h.registry
    failsIn := h.failsIn
    distinct := h.distinct
    known := hrules ▸ h.known
    waiting := hpending ▸ h.waiting
    next := (next_eq_of_bare hb).trans h.next
    immediate := by
      rw [mode_eq_of_bare hb, hpending]
      exact h.immediate
    unmasked := fun s hs => pendingOf_eq_of_bare hb _ ▸ h.unmasked s hs
    distinctDue := h.distinctDue
    owed := h.owed
    servesDue := fun s hs batch hmem => pendingOf_eq_of_bare hb _ ▸ hserves (h.servesDue s hs batch hmem)
    serves := fun s hs hn => pendingOf_eq_of_bare hb _ ▸ hserves (h.serves s hs hn) }

theorem Tracks.of_pools {P' : Sentence → Pools} (h : Tracks reg K rules P due σ)
    (hP : ∀ s ∈ rules, ∀ p ∈ s.formula.patterns, (P s).pool p = (P' s).pool p) :
    Tracks reg K rules P' due σ :=
  { h with
    servesDue := fun s hs batch hb => (h.servesDue s hs batch hb).of_pools (hP s hs)
    serves := fun s hs hn => (h.serves s hs hn).of_pools (hP s hs) }

theorem tracks_start (mode : SchedulingMode) (options : CheckerOptions) (reg : Registry)
    (K : Failure → Prop) :
    Tracks reg K ({} : Ledger).rules (fun _ => ({} : Ledger).pools) [] (start mode options reg) where
  registry := rfl
  failsIn := nofun
  distinct := List.nodup_nil
  known id r h := by
    rw [start, ExtTreeMap.getElem?_empty] at h
    cases h
  waiting id l h := by
    rw [start, ExtTreeMap.getElem?_empty] at h
    cases h
  next := rfl
  immediate _ := rfl
  unmasked := nofun
  distinctDue := List.nodup_nil
  owed := nofun
  servesDue := nofun
  serves := nofun

theorem Tracks.eq_of_rule (h : Tracks reg K rules P due σ) {s s' : Sentence} (hs : s ∈ rules)
    (hs' : s' ∈ rules) (e : s.rule = s'.rule) : s = s' :=
  List.inj_on_of_nodup_map h.distinct hs hs' e

/-- **What is due is submitted**, or more than a predicate fails. -/
theorem Tracks.submitAll (hK : Failure.CrashClosed K)
    (h : Tracks reg K rules P due σ) :
    (∃ reports σ', Scheduler.submitAll due σ = .ok reports σ' ∧ Tracks reg K rules P [] σ' ∧
      σ'.pending = σ.pending ∧
      List.Forall₂ (Reported K σ.checker) (due.filter fun b => !b.2.isEmpty) reports) ∨
    FallsAt K (Scheduler.submitAll due) σ := by
  have hdue : ∀ b ∈ due, Due K σ.checker b := fun b hb => by
    obtain ⟨s, hs, hid, -⟩ := h.owed b hb
    exact ⟨s, _, _, hid, h.registry.symm ▸ h.failsIn s hs, h.servesDue s hs b.2 (hid ▸ hb)⟩
  refine (submitAll_does hK (σ := σ) h.distinctDue hdue).imp ?_ fun h => h σ rfl
  rintro ⟨reports, rules, ⟨hdoes, hother, hserves, hreported⟩⟩
  obtain ⟨σ', hok, hb⟩ := hdoes σ rfl
  refine ⟨reports, σ', hok, Tracks.of_bare ?_ hb, (pending_eq_of_bare hb :), hreported⟩
  exact {
    registry := h.registry
    failsIn := h.failsIn
    distinct := h.distinct
    known := fun id r hr => by
      by_cases hid : id ∈ due.map Prod.fst
      · obtain ⟨b, hb, rfl⟩ := List.mem_map.mp hid
        obtain ⟨s, hs, hid, -⟩ := h.owed b hb
        exact ⟨s, hs, hid⟩
      · exact h.known id r (hother id hid ▸ hr)
    waiting := h.waiting
    next := h.next
    immediate := h.immediate
    unmasked := h.unmasked
    distinctDue := List.nodup_nil
    owed := nofun
    servesDue := nofun
    serves := fun s hs _ => by
      by_cases hid : s.rule ∈ due.map Prod.fst
      · obtain ⟨⟨id, batch⟩, hb, rfl⟩ := List.mem_map.mp hid
        exact hserves s batch _ _ hb (h.servesDue s hs batch hb)
      · exact (h.serves s hs hid).congr (hother _ hid) rfl }

theorem Tracks.rulesOver (h : Tracks reg K rules P [] σ) (p : String) :
    ∃ ss : List Sentence, σ.checker.rulesOver p = ss.map (fun s => s.rule) ∧
      (ss.map fun s => s.rule).Nodup ∧ ∀ s, s ∈ ss ↔ s ∈ rules ∧ p ∈ s.formula.patterns := by
  have hrule : ∀ id (r : Rule), σ.checker.rules[id]? = some r → r.sentence ∈ rules ∧ r.id = id := by
    intro id r hr
    obtain ⟨s, hs, rfl⟩ := h.known id r hr
    obtain ⟨r', Q, hr', -, rfl, -⟩ := h.serves s hs List.not_mem_nil
    obtain rfl := Option.some.inj (hr.symm.trans hr')
    exact ⟨hs, rfl⟩
  refine ⟨(σ.checker.ruleList.filter fun r => r.sentence.mentions p).map (·.sentence), ?_, ?_, ?_⟩
  · rw [List.map_map]
    rfl
  · rw [List.map_map]
    refine List.Nodup.sublist (List.filter_sublist.map _) ?_
    exact Map.nodup_map_values fun k r hr => (hrule k r hr).2
  · intro s
    simp only [List.mem_map, List.mem_filter, Checker.ruleList, Map.mem_values,
      Sentence.mentions_iff]
    constructor
    · rintro ⟨r, ⟨⟨id, hr⟩, hp⟩, rfl⟩
      exact ⟨(hrule id r hr).1, hp⟩
    · rintro ⟨hs, hp⟩
      obtain ⟨r, Q, hr, -, rfl, -⟩ := h.serves s hs List.not_mem_nil
      exact ⟨r, ⟨⟨_, hr⟩, hp⟩, rfl⟩

theorem Tracks.ready (h : Tracks reg K rules P [] σ) (hv : change.isValid (P s) = true)
    (hs : s ∈ rules) (hp : change.pattern ∈ s.formula.patterns) :
    Ready K s change (P s) σ where
  failsIn := h.registry.symm ▸ h.failsIn s hs
  serves := h.serves s hs List.not_mem_nil
  mem := hp
  valid := hv
  unmasked := h.unmasked s hs
  next := h.next ▸ ExtTreeMap.getElem?_empty

/-- **A change is taken in** and made due at once. -/
theorem Tracks.intake_immediate (h : Tracks reg K rules P [] σ) (hv : change.Fits rules P)
    (hm : σ.mode = .immediate) :
    ∃ due, Scheduler.intake change σ = .ok due σ ∧
      Tracks reg K rules (fun s => (P s).step change) due σ := by
  obtain ⟨ss, hover, hnodup, hmem⟩ := h.rulesOver change.pattern
  have hpending : ∀ id, σ.pendingOf id = [] := fun id => by
    unfold pendingOf
    rw [h.immediate hm, ExtTreeMap.getD_empty]
  refine ⟨ss.map fun s => (s.rule, [change]), ?_, ?_⟩
  · rw [intake_of_immediate hm, hover, List.map_map]
    rfl
  have hkeys : (ss.map fun s => (s.rule, [change])).map Prod.fst = ss.map fun s => s.rule :=
    List.map_map
  exact {
    registry := h.registry
    failsIn := h.failsIn
    distinct := h.distinct
    known := h.known
    waiting := h.waiting
    next := h.next
    immediate := h.immediate
    unmasked := h.unmasked
    distinctDue := hkeys ▸ hnodup
    owed := fun b hb => by
      obtain ⟨s, hs, rfl⟩ := List.mem_map.mp hb
      exact ⟨s, ((hmem s).mp hs).1, rfl, s.unmasked_singleton change⟩
    servesDue := fun s hs batch hb => by
      obtain ⟨s', hs', e⟩ := List.mem_map.mp hb
      obtain ⟨hid, rfl⟩ := Prod.mk.inj e
      obtain rfl := h.eq_of_rule ((hmem s').mp hs').1 hs hid
      have hp := ((hmem s').mp hs').2
      have hserves := (h.serves s' hs List.not_mem_nil).append hp (hv s' hs hp)
      rw [hpending, List.nil_append] at hserves
      rw [hpending, List.append_nil]
      exact hserves
    serves := fun s hs hn => by
      refine (h.serves s hs List.not_mem_nil).pass fun hp => hn ?_
      rw [hkeys]
      exact List.mem_map_of_mem ((hmem s).mpr ⟨hs, hp⟩) }

theorem does_turnOver (σ : Scheduler) :
    Does turnOver σ (σ.next.toList.map fun e => (e.1, σ.pendingOf e.1))
      { σ with pending := σ.pending.insertMany σ.next.toList, next := ∅ } := by
  refine does_get fun t ht => ?_
  have hmap : (t.next.toList.map fun e => (e.1, t.pendingOf e.1)) =
      σ.next.toList.map fun e => (e.1, σ.pendingOf e.1) := by
    rw [next_eq_of_bare ht]
    exact List.map_congr_left fun e _ => by rw [pendingOf_eq_of_bare ht]
  rw [hmap, next_eq_of_bare ht, pending_eq_of_bare ht]
  exact fun u _ => ⟨_, rfl, congrArg (fun u : Scheduler => { u with
    pending := σ.pending.insertMany σ.next.toList, next := ∅ }) ht⟩

theorem Taken.turned {P : Pools} (h : Taken K s change P σ) :
    let pending := ({ σ with pending := σ.pending.insertMany σ.next.toList, next := ∅ } :
      Scheduler).pendingOf s.rule
    (σ.next[s.rule]? = none ∧ pending = σ.pendingOf s.rule ∧
        σ.checker.Serves K s pending P) ∨
      σ.next[s.rule]? = some [change] ∧ pending = [change] ∧
        σ.checker.Serves K s (σ.pendingOf s.rule ++ pending) P := by
  have hpending : ({ σ with pending := σ.pending.insertMany σ.next.toList, next := ∅ } :
      Scheduler).pendingOf s.rule = (σ.next[s.rule]?.or σ.pending[s.rule]?).getD [] := by
    unfold pendingOf
    rw [ExtTreeMap.getD_eq_getD_getElem?, Map.getElem?_insertMany_toList]
  have hserves := h.serves
  rw [ExtTreeMap.getD_eq_getD_getElem?] at hserves
  dsimp only
  rw [hpending]
  rcases h.next with hn | hn
  · rw [hn, Option.getD_none, List.append_nil] at hserves
    rw [hn, Option.none_or, ← ExtTreeMap.getD_eq_getD_getElem?]
    exact .inl ⟨rfl, rfl, hserves⟩
  · rw [hn, Option.getD_some] at hserves
    rw [hn, Option.some_or, Option.getD_some]
    exact .inr ⟨rfl, rfl, hserves⟩

theorem Tracks.taken {ss : List Sentence} {σ₁ : Scheduler} (h : Tracks reg K rules P [] σ)
    (hmem : ∀ s, s ∈ ss ↔ s ∈ rules ∧ change.pattern ∈ s.formula.patterns)
    (halters : AltersOnly (ss.map fun s => s.rule) σ σ₁)
    (htakes : ∀ s ∈ ss, Taken K s change ((P s).step change) σ₁) :
    ∀ s ∈ rules, Taken K s change ((P s).step change) σ₁ := by
  intro s hs
  by_cases hid : s.rule ∈ ss.map fun s => s.rule
  · obtain ⟨s', hs', e⟩ := List.mem_map.mp hid
    obtain rfl := h.eq_of_rule ((hmem s').mp hs').1 hs e
    exact htakes s' hs'
  · have hp : change.pattern ∉ s.formula.patterns := fun hp =>
      hid (List.mem_map_of_mem ((hmem s).mpr ⟨hs, hp⟩))
    have hnone : σ.next[s.rule]? = none := h.next ▸ ExtTreeMap.getElem?_empty
    refine Taken.alter ⟨?_, h.unmasked s hs, .inl hnone⟩ halters hid
    rw [ExtTreeMap.getD_eq_getD_getElem?, hnone, Option.getD_none, List.append_nil]
    exact (h.serves s hs List.not_mem_nil).pass hp

/-- The turn after a change was taken: what waited for the rules that it could mask is due. -/
theorem Tracks.turned {ids : List String} {σ₁ : Scheduler} (h : Tracks reg K rules P [] σ)
    (hm : σ.mode = .batched) (hids : ∀ id ∈ ids, ∃ s ∈ rules, s.rule = id)
    (halters : AltersOnly ids σ σ₁) (htaken : ∀ s ∈ rules, Taken K s change ((P s).step change) σ₁) :
    Tracks reg K rules (fun s => (P s).step change) (σ₁.next.toList.map fun e => (e.1, σ₁.pendingOf e.1))
      { σ₁ with pending := σ₁.pending.insertMany σ₁.next.toList, next := ∅ } := by
  have hknown : ∀ id, (∃ l, σ₁.next[id]? = some l) → ∃ s ∈ rules, s.rule = id := by
    rintro id ⟨l, hl⟩
    refine hids id (by_contra fun hid => ?_)
    rw [halters.next hid, h.next, ExtTreeMap.getElem?_empty] at hl
    cases hl
  have hdue : ∀ id batch, (id, batch) ∈ (σ₁.next.toList.map fun e => (e.1, σ₁.pendingOf e.1)) →
      batch = σ₁.pendingOf id ∧ ∃ l, σ₁.next[id]? = some l := by
    intro id batch hb
    obtain ⟨⟨id', l⟩, he, e⟩ := List.mem_map.mp hb
    cases e
    exact ⟨rfl, l, ExtTreeMap.mem_toList_iff_getElem?_eq_some.mp he⟩
  exact {
    registry := halters.registry.trans h.registry
    failsIn := h.failsIn
    distinct := h.distinct
    known := fun id r hr => by
      by_cases hid : id ∈ ids
      · exact hids id hid
      · exact h.known id r (halters.rules hid ▸ hr)
    waiting := fun id l hl => by
      rw [Map.getElem?_insertMany_toList] at hl
      cases hn : σ₁.next[id]? with
      | some l' => exact hknown id ⟨l', hn⟩
      | none =>
        rw [hn, Option.none_or] at hl
        by_cases hid : id ∈ ids
        · exact hids id hid
        · exact h.waiting id l (halters.pending hid ▸ hl)
    next := rfl
    immediate := fun hi => absurd (hi.symm.trans (halters.mode.trans hm)) (by decide)
    unmasked := fun s hs => by
      rcases (htaken s hs).turned with ⟨-, hp, -⟩ | ⟨-, hp, -⟩
      · exact hp ▸ (htaken s hs).unmasked
      · exact hp ▸ s.unmasked_singleton change
    distinctDue := by
      rw [List.map_map]
      exact Map.nodup_map_fst_toList _
    owed := fun b hb => by
      obtain ⟨hbatch, hl⟩ := hdue b.1 b.2 hb
      obtain ⟨s, hs, hid⟩ := hknown b.1 hl
      exact ⟨s, hs, hid, hbatch ▸ hid ▸ (htaken s hs).unmasked⟩
    servesDue := fun s hs batch hb => by
      obtain ⟨rfl, l, hl⟩ := hdue s.rule batch hb
      rcases (htaken s hs).turned with ⟨hn, -⟩ | ⟨-, -, hserves⟩
      · exact absurd (hn.symm.trans hl) nofun
      · exact hserves
    serves := fun s hs hn => by
      rcases (htaken s hs).turned with ⟨-, -, hserves⟩ | ⟨hl, -, -⟩
      · exact hserves
      · refine absurd (List.mem_map.mpr ⟨(s.rule, σ₁.pendingOf s.rule), ?_, rfl⟩) hn
        exact List.mem_map.mpr
          ⟨(s.rule, [change]), ExtTreeMap.mem_toList_iff_getElem?_eq_some.mpr hl, rfl⟩ }

/-- **A change is taken in** and waits, or makes the batches due that it could mask. -/
theorem Tracks.intake_batched (hK : Failure.CrashClosed K)
    (h : Tracks reg K rules P [] σ) (hv : change.Fits rules P) (hm : σ.mode = .batched) :
    (∃ due σ', Scheduler.intake change σ = .ok due σ' ∧
      Tracks reg K rules (fun s => (P s).step change) due σ') ∨
    FallsAt K (Scheduler.intake change) σ := by
  obtain ⟨ss, hover, hnodup, hmem⟩ := h.rulesOver change.pattern
  have hready : ∀ s ∈ ss, Ready K s change (P s) σ := fun s hs => by
    obtain ⟨hs, hp⟩ := (hmem s).mp hs
    exact h.ready (hv s hs hp) hs hp
  rcases takes_does hK change hnodup hready with ⟨σ₁, hdoes, halters, htakes⟩ | hfalls
  swap
  · obtain ⟨e, τ, htakes, he⟩ := hfalls σ rfl
    refine .inr ⟨e, τ, ?_, he⟩
    rw [intake_of_batched hm, hover]
    exact Routine.bind_error htakes
  refine .inl ?_
  have hids : ∀ id ∈ ss.map fun s => s.rule, ∃ s ∈ rules, s.rule = id := fun id hid => by
    obtain ⟨s, hs, rfl⟩ := List.mem_map.mp hid
    exact ⟨s, ((hmem s).mp hs).1, rfl⟩
  obtain ⟨τ, hok, hb⟩ := hdoes.bind (f := fun _ => turnOver) (does_turnOver σ₁) σ rfl
  have hintake : Scheduler.intake change σ =
      .ok (σ₁.next.toList.map fun e => (e.1, σ₁.pendingOf e.1)) τ := by
    rw [intake_of_batched hm, hover]
    exact hok
  exact ⟨_, τ, hintake, (h.turned hm hids halters (h.taken hmem halters htakes)).of_bare hb⟩

/-- **A change is taken in**, in either mode. -/
theorem Tracks.intake_schedule (hK : Failure.CrashClosed K)
    (h : Tracks reg K rules P [] σ) (hv : change.Fits rules P) :
    (∃ due σ', Scheduler.intake change σ = .ok due σ' ∧
      Tracks reg K rules (fun s => (P s).step change) due σ') ∨
    FallsAt K (Scheduler.intake change) σ := by
  cases hm : σ.mode with
  | immediate =>
    obtain ⟨due, hok, ht⟩ := h.intake_immediate hv hm
    exact .inl ⟨due, σ, hok, ht⟩
  | batched => exact h.intake_batched hK hv hm

theorem pendingOf_of_some {id : String} {l : List Change} (h : σ.pending[id]? = some l) :
    σ.pendingOf id = l := by
  unfold pendingOf
  rw [ExtTreeMap.getD_eq_getD_getElem?, h, Option.getD_some]

theorem pendingOf_of_none {id : String} (h : σ.pending[id]? = none) : σ.pendingOf id = [] := by
  unfold pendingOf
  rw [ExtTreeMap.getD_eq_getD_getElem?, h, Option.getD_none]

/-- **A rule is registered** over a snapshot. -/
theorem Tracks.intake_register (hK : Failure.CrashClosed K)
    (h : Tracks reg K rules P [] σ) (hw : s.WellFormed) (hf : reg.FailsIn K s.formula)
    (hfresh : ∀ s' ∈ rules, s'.rule ≠ s.rule) {facts : List Change} (hsnap : s.SeededBy facts (P s)) :
    (∃ report σ', onChecker (Checker.addRule s facts) σ = .ok report σ' ∧
      Tracks reg K (s :: rules) P [] σ') ∨
    FallsAt K (onChecker (Checker.addRule s facts)) σ := by
  obtain ⟨Q, hQ, hpools⟩ := hsnap
  have hnew : σ.checker.rules.contains s.rule = false := by
    rw [ExtTreeMap.contains_eq_isSome_getElem?, Option.isSome_eq_false_iff, Option.isNone_iff_eq_none]
    refine Option.eq_none_iff_forall_ne_some.mpr fun r hr => ?_
    obtain ⟨s', hs', hid⟩ := h.known _ r hr
    exact hfresh s' hs' hid
  have hempty : σ.pendingOf s.rule = [] := by
    refine pendingOf_of_none (Option.eq_none_iff_forall_ne_some.mpr fun l hl => ?_)
    obtain ⟨s', hs', hid⟩ := h.waiting _ l hl
    exact hfresh s' hs' hid
  rcases Checker.addRule_tenable_or_falls hK hnew hw (h.registry.symm ▸ hf) hQ with
    ⟨r, hdoes, hten, hsent, rfl⟩ | hfalls
  swap
  · exact .inr (falls_onChecker hfalls σ rfl)
  obtain ⟨σ', hok, hb⟩ := does_onChecker hdoes σ rfl
  have hother : ∀ s' ∈ rules, (σ.checker.rules.insert s.rule r)[s'.rule]? =
      σ.checker.rules[s'.rule]? := fun s' hs' => by
    rw [Map.getElem?_insert, if_neg (Ne.symm (hfresh s' hs'))]
  refine .inl ⟨r.report, σ', hok, Tracks.of_bare ?_ hb⟩
  exact {
    registry := h.registry
    failsIn := List.forall_mem_cons.mpr ⟨hf, h.failsIn⟩
    distinct := by
      rw [List.map_cons, List.nodup_cons]
      refine ⟨fun hmem => ?_, h.distinct⟩
      obtain ⟨s', hs', hid⟩ := List.mem_map.mp hmem
      exact hfresh s' hs' hid
    known := fun id r' hr' => by
      change (σ.checker.rules.insert s.rule r)[id]? = some r' at hr'
      rw [Map.getElem?_insert] at hr'
      split_ifs at hr' with hid
      · exact ⟨s, List.mem_cons_self, hid⟩
      · obtain ⟨s', hs', hid⟩ := h.known id r' hr'
        exact ⟨s', List.mem_cons_of_mem _ hs', hid⟩
    waiting := fun id l hl => by
      obtain ⟨s', hs', hid⟩ := h.waiting id l hl
      exact ⟨s', List.mem_cons_of_mem _ hs', hid⟩
    next := h.next
    immediate := h.immediate
    unmasked := List.forall_mem_cons.mpr ⟨hempty ▸ s.unmasked_nil, h.unmasked⟩
    distinctDue := List.nodup_nil
    owed := nofun
    servesDue := nofun
    serves := List.forall_mem_cons.mpr
      ⟨fun _ => ⟨r, r.facts.pools, ExtTreeMap.getElem?_insert_self, hten, hsent, hempty ▸ rfl, hpools⟩,
        fun s' hs' hn => (h.serves s' hs' hn).congr (hother s' hs') rfl⟩ }

/-- **All that waits** is made due. -/
theorem Tracks.intake_flush (h : Tracks reg K rules P [] σ) :
    Tracks reg K rules P σ.pending.toList { σ with pending := ∅ } := by
  have hpending : ∀ id, ({ σ with pending := ∅ } : Scheduler).pendingOf id = [] := fun id =>
    pendingOf_of_none ExtTreeMap.getElem?_empty
  have hdue : ∀ {id batch}, (id, batch) ∈ σ.pending.toList → σ.pending[id]? = some batch := fun hb =>
    ExtTreeMap.mem_toList_iff_getElem?_eq_some.mp hb
  exact {
    registry := h.registry
    failsIn := h.failsIn
    distinct := h.distinct
    known := h.known
    waiting := fun id l hl => by
      rw [ExtTreeMap.getElem?_empty] at hl
      cases hl
    next := h.next
    immediate := fun _ => rfl
    unmasked := fun s _ => hpending s.rule ▸ s.unmasked_nil
    distinctDue := Map.nodup_map_fst_toList _
    owed := fun b hb => by
      obtain ⟨s, hs, hid⟩ := h.waiting b.1 b.2 (hdue hb)
      exact ⟨s, hs, hid, pendingOf_of_some (hid ▸ hdue hb) ▸ h.unmasked s hs⟩
    servesDue := fun s hs batch hb => by
      rw [hpending, List.append_nil, ← pendingOf_of_some (hdue hb)]
      exact h.serves s hs List.not_mem_nil
    serves := fun s hs hn => by
      have hnone : σ.pending[s.rule]? = none :=
        Option.eq_none_iff_forall_ne_some.mpr fun l hl => hn (List.mem_map.mpr
          ⟨(s.rule, l), ExtTreeMap.mem_toList_iff_getElem?_eq_some.mpr hl, rfl⟩)
      rw [hpending, ← pendingOf_of_none hnone]
      exact h.serves s hs List.not_mem_nil }

/-- **A change is scheduled**, and what it makes due is submitted, or more than a predicate fails. -/
theorem Tracks.schedule (hK : Failure.CrashClosed K) (h : Tracks reg K rules P [] σ)
    (hv : change.Fits rules P) :
    (∃ reports σ', Scheduler.schedule change σ = .ok reports σ' ∧
      Tracks reg K rules (fun s => (P s).step change) [] σ') ∨
    FallsAt K (Scheduler.schedule change) σ := by
  rcases h.intake_schedule hK hv with ⟨due, σ₁, hintake, h₁⟩ | hfalls
  · rcases h₁.submitAll hK with ⟨reports, σ', hsubmit, h', -⟩ | hfalls
    · exact .inl ⟨reports, σ', schedule_eq_ok.mpr ⟨_, _, hintake, hsubmit⟩, h'⟩
    · exact .inr (fallsAt_schedule (fallsAt_bind hintake hfalls))
  · exact .inr (fallsAt_schedule (hfalls.bind _))

/-- **All that waits** is submitted, or more than a predicate fails. -/
theorem Tracks.flush (hK : Failure.CrashClosed K) (h : Tracks reg K rules P [] σ) :
    (∃ reports σ', Scheduler.flush σ = .ok reports σ' ∧ Tracks reg K rules P [] σ' ∧ σ'.pending = ∅) ∨
    FallsAt K Scheduler.flush σ := by
  rcases h.intake_flush.submitAll hK with ⟨reports, σ', hok, h', hpending, -⟩ | hfalls
  · exact .inl ⟨reports, σ', hok, h', hpending⟩
  · exact .inr hfalls

section Events

variable {Admits : Sentence → Prop} (hK : ∀ e, K e → e.isPredicate = true)
  (hA : ∀ s, Admits s → s.WellFormed ∧ reg.FailsIn K s.formula)

include hK hA

/-- **Every valid event** is taken in, if predicates fail locally. -/
theorem Tracks.intake {e : Event} (he : e.Leads Admits L L')
    (h : Tracks reg K L.rules (fun _ => L.pools) [] σ) :
    ∃ due σ', e.intake σ = .ok due σ' ∧ Tracks reg K L'.rules (fun _ => L'.pools) due σ' := by
  have hK' := Failure.crashClosed_of_isPredicate hK
  cases he with
  | register accepted fresh snapshot =>
    obtain ⟨report, σ', hok, h'⟩ := (h.intake_register hK' (hA _ accepted).1 (hA _ accepted).2 fresh
      snapshot).resolve_right (not_fallsAt hK)
    exact ⟨[], σ', Routine.bind_ok hok, h'⟩
  | schedule valid =>
    exact (h.intake_schedule hK' fun _ _ _ => valid).resolve_right (not_fallsAt hK)
  | critical id => exact ⟨[], σ.addCritical id, rfl, { h with }⟩
  | flush => exact ⟨_, _, rfl, h.intake_flush⟩

/-- **Every valid event** happens, and the ledger is tracked again. -/
theorem Tracks.perform {e : Event} (he : e.Leads Admits L L')
    (h : Tracks reg K L.rules (fun _ => L.pools) [] σ) :
    ∃ reports σ', e.perform σ = .ok reports σ' ∧ Tracks reg K L'.rules (fun _ => L'.pools) [] σ' := by
  obtain ⟨due, σ₁, hintake, h₁⟩ := h.intake hK hA he
  obtain ⟨reports, σ', hsubmit, h', -⟩ :=
    (h₁.submitAll (Failure.crashClosed_of_isPredicate hK)).resolve_right (not_fallsAt hK)
  exact ⟨reports, σ', Event.perform_eq_ok.mpr ⟨_, _, hintake, hsubmit⟩, h'⟩

/-- **Every stream** runs to its end. -/
theorem Tracks.performAll {es : List Event} (hes : Stream Admits L es L')
    (h : Tracks reg K L.rules (fun _ => L.pools) [] σ) :
    ∃ reports σ', Scheduler.performAll es σ = .ok reports σ' ∧
      Tracks reg K L'.rules (fun _ => L'.pools) [] σ' := by
  induction hes generalizing σ with
  | nil => exact ⟨[], σ, rfl, h⟩
  | cons first _ ih =>
    obtain ⟨reports, σ₁, hfirst, h₁⟩ := h.perform hK hA first
    obtain ⟨more, σ', hrest, h'⟩ := ih h₁
    refine ⟨reports ++ more, σ', ?_, h'⟩
    unfold Scheduler.performAll
    rw [Routine.bind_ok hfirst, Routine.bind_ok hrest]
    rfl

end Events

/-! ## Batches and single changes -/

theorem Tracks.serves_of_pending_empty (h : Tracks reg K rules P [] σ) (he : σ.pending = ∅) :
    ∀ s ∈ rules, σ.checker.Serves K s [] (P s) := by
  intro s hs
  have hserves := h.serves s hs List.not_mem_nil
  rw [pendingOf_of_none (by rw [he]; exact ExtTreeMap.getElem?_empty)] at hserves
  exact hserves

end Scheduler

theorem Formula.status_congr {r : Registry} {P Q : Pools} {f : Formula}
    (h : ∀ p ∈ f.patterns, P.pool p = Q.pool p) : f.status r P = f.status r Q := by
  unfold status
  rw [holds_congr ∅ h, links_congr ∅ h]

/-- The report on a rule that nothing waits for, if its predicates never fail. -/
theorem Checker.Serves.report {c : Checker} {s : Sentence} {P : Pools}
    (h : c.Serves (fun _ => False) s [] P) :
    ∃ r, c.rules[s.rule]? = some r ∧ s.reportOver c.registry P = .ok r.report := by
  obtain ⟨r, Q, hr, hten, rfl, hQ, hpools⟩ := h
  cases hQ
  have hs : r.Sound c.engine := hten.resolve_right fun ⟨_, _, h⟩ => h
  refine ⟨r, hr, ?_⟩
  have he : r.sentence.formula.Evaluates c.registry P ∅ :=
    (Formula.evaluates_congr hpools).mp hs.evaluates
  rw [Sentence.reportOver_eq he, hs.report, Formula.status_congr hpools]
  rfl

namespace Scheduler

variable {reg : Registry} {L : Ledger}

/-- **Batches come to what changes come to one by one.** Any stream of registrations, changes, critical
contexts and flushes runs to its end, if predicates never fail. What then waits for a rule leads from
its facts to the pools of all the changes so far. After a flush every rule has the report of its formula
over these pools, and so it has if the same events happen to a scheduler that does not wait. -/
theorem batches_refine {es : List Event} (hes : Stream reg.Accepts {} es L)
    (options options' : CheckerOptions) :
    ∃ reports σ, performAll es (start .batched options reg) = .ok reports σ ∧
      (∀ s ∈ L.rules, ∃ r Q, σ.checker.rules[s.rule]? = some r ∧ r.sentence = s ∧
        r.facts.pools.after? (σ.pendingOf s.rule) = some Q ∧
        ∀ p, s.mentions p = true → Q.pool p = L.pools.pool p) ∧
      ∃ flushed σ', flush σ = .ok flushed σ' ∧
        ∃ reports' τ flushed' τ',
          performAll es (start .immediate options' reg) = .ok reports' τ ∧
          flush τ = .ok flushed' τ' ∧
          ∀ s ∈ L.rules, ∃ r r', σ'.checker.rules[s.rule]? = some r ∧
            τ'.checker.rules[s.rule]? = some r' ∧ s.reportOver reg L.pools = .ok r.report ∧
            r'.report = r.report := by
  have hK : ∀ e : Failure, False → e.isPredicate = true := fun _ h => h.elim
  have hA : ∀ s, reg.Accepts s → s.WellFormed ∧ reg.FailsIn (fun _ => False) s.formula :=
    fun s h => h.admits _
  obtain ⟨reports, σ, hok, h⟩ := (tracks_start .batched options reg _).performAll hK hA hes
  obtain ⟨flushed, σ', hflush, h', hempty⟩ :=
    (h.flush fun _ h => h).resolve_right (not_fallsAt hK)
  obtain ⟨reports', τ, hok', h₁⟩ := (tracks_start .immediate options' reg _).performAll hK hA hes
  obtain ⟨flushed', τ', hflush', h₁', hempty'⟩ :=
    (h₁.flush fun _ h => h).resolve_right (not_fallsAt hK)
  refine ⟨reports, σ, hok, fun s hs => ?_, flushed, σ', hflush, reports', τ, flushed', τ', hok', hflush',
    fun s hs => ?_⟩
  · obtain ⟨r, Q, hr, -, hsent, hQ, hpools⟩ := h.serves s hs List.not_mem_nil
    exact ⟨r, Q, hr, hsent, hQ, fun p hp => hpools p (Sentence.mentions_iff.mp hp)⟩
  · obtain ⟨r, hr, hreport⟩ := (h'.serves_of_pending_empty hempty s hs).report
    obtain ⟨r', hr', hreport'⟩ := (h₁'.serves_of_pending_empty hempty' s hs).report
    rw [h'.registry] at hreport
    rw [h₁'.registry, hreport] at hreport'
    exact ⟨r, r', hr, hr', hreport, (Except.ok.inj hreport').symm⟩

end Scheduler

namespace Sample

/-- A rule is registered over a sensor that is there, and two more sensors come, one of them critical
and not calm. -/
def events : List Event :=
  [.schedule (change .addition 0 "0"), .register sentence [change .addition 0 "0"], .critical 1,
    .schedule (change .addition 1 "1"), .schedule (change .addition 2 "0")]

/-- The ledger after the events. -/
def ledger : Ledger where
  rules := [sentence]
  pools := (((∅ : Pools).step (change .addition 0 "0")).step (change .addition 1 "1")).step
    (change .addition 2 "0")

theorem accepts_sentence : registry.Accepts sentence :=
  ⟨⟨draft, 1, build_draft⟩, registry_decides⟩

theorem stream_events : Stream registry.Accepts {} events ledger :=
  .cons (.schedule rfl) <| .cons (.register accepts_sentence nofun ⟨_, rfl, fun _ _ => rfl⟩) <|
    .cons (.critical 1 _) <| .cons (.schedule rfl) <| .cons (.schedule rfl) <| .nil _

end Sample

theorem Scheduler.batches_refine_sample :
    ∃ reports σ, performAll Sample.events (start .batched {} Sample.registry) = .ok reports σ ∧
      (∃ r Q, σ.checker.rules["calm"]? = some r ∧
        r.facts.pools.after? (σ.pendingOf "calm") = some Q ∧
        Q.pool "sensor" = Sample.ledger.pools.pool "sensor") ∧
      ∃ flushed σ' r, flush σ = .ok flushed σ' ∧ σ'.checker.rules["calm"]? = some r ∧
        Sample.sentence.reportOver Sample.registry Sample.ledger.pools = .ok r.report := by
  obtain ⟨reports, σ, hok, hpending, flushed, σ', hflush, _, _, _, _, -, -, hrules⟩ :=
    batches_refine Sample.stream_events {} {}
  obtain ⟨r, Q, hr, -, hQ, hpools⟩ := hpending Sample.sentence List.mem_cons_self
  obtain ⟨r', _, hr', -, hreport, -⟩ := hrules Sample.sentence List.mem_cons_self
  exact ⟨reports, σ, hok, ⟨r, Q, hr, hQ, hpools "sensor" rfl⟩, flushed, σ', r', hflush, hr', hreport⟩

end RuleMonitor
