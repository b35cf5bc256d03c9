import RuleMonitor.Proofs.Monotone
import RuleMonitor.Proofs.Schedule.Streams

/-!
# Violations are not masked

A rule that becomes false in the middle of a batch, by a change that can falsify it, is reported false
at the end of the batch. The changes behind it cannot make the rule true again: if one of them could, an
earlier one would concern the same context.

* `Pools.afterEach?_of_after?`: changes one at a time.
* `Sentence.Unmasked.behind_plus`: what can stand behind a change that falsifies.
* **`Scheduler.batches_unmasked`**: the batches that a stream leads to, and the reports on them.
-/

namespace RuleMonitor

open Std (ExtTreeMap)

theorem Pools.afterEach?_of_after? {l : List Change} : ∀ {P Q : Pools} {c : Change},
    P.after? (l ++ [c]) = some Q →
    ∃ Qs, P.afterEach? ((l ++ [c]).map fun x => [x]) = some Qs ∧ Qs.getLast? = some Q := by
  induction l with
  | nil =>
    intro P Q c h
    rw [List.nil_append] at h
    refine ⟨[Q], ?_, rfl⟩
    rw [List.nil_append, List.map_singleton, afterEach?, h]
    rfl
  | cons x l ih =>
    intro P Q c h
    rw [List.cons_append, after?_cons_eq_some] at h
    obtain ⟨Qs, hQs, hlast⟩ := ih h.2
    have hx : P.after? [x] = some (P.step x) := after?_cons_eq_some.mpr ⟨h.1, rfl⟩
    refine ⟨P.step x :: Qs, ?_, ?_⟩
    · rw [List.cons_append, List.map_cons, afterEach?, hx, Option.bind_eq_bind, Option.bind_some, hQs]
      rfl
    · rw [List.getLast?_cons, hlast, Option.getD_some]

namespace Sentence

variable {s : Sentence} {before after : List Change} {c : Change}

/-- **Behind a change that can falsify a rule** nothing can make it true, if all changes concern contexts
of their own. -/
theorem Unmasked.behind_plus (h : s.Unmasked (before ++ c :: after))
    (hn : ((before ++ c :: after).map fun x => x.id).Nodup) (hc : (s.effect c).isPlus = true) :
    ∀ d ∈ after, (s.effect d).isMinus = false := by
  intro d hd
  by_contra hminus
  rw [Bool.not_eq_false] at hminus
  obtain ⟨l, l', rfl⟩ := List.append_of_mem hd
  have hsplit : before ++ c :: (l ++ d :: l') = (before ++ c :: l) ++ d :: l' := by simp
  rw [hsplit] at h hn
  obtain ⟨x, hx, hid⟩ := h _ d l' rfl hminus ⟨c, by simp, hc⟩
  rw [List.map_append, List.map_cons, List.nodup_append] at hn
  exact hn.2.2 _ (List.mem_map_of_mem hx) _ List.mem_cons_self hid

end Sentence

namespace Scheduler

variable {reg : Registry} {L L' : Ledger} {σ τ : Scheduler} {due : List (String × List Change)}

/-- A report on a batch does not hide that the rule is false after one of the changes of the batch. -/
def Reveals (c : Checker) (s : Sentence) (batch : List Change) (report : Report) : Prop :=
  ∀ before x after, batch = before ++ x :: after → (s.effect x).isPlus = true →
    (∃ reports c' last,
      Checker.checkAll s.rule ((before ++ [x]).map fun y => [y]) c = .ok reports c' ∧
        reports.getLast? = some last ∧ last.status.truth = .no) →
    report.status.truth = .no

theorem reveals {c : Checker} {r r' : Rule} {batch : List Change}
    (hr : c.rules[r.sentence.rule]? = some r) (hs : r.Sound c.engine) (hs' : r'.Sound c.engine)
    (hd : c.registry.Decides r.sentence.formula) (hsent : r'.sentence = r.sentence)
    (hafter : r.facts.pools.after? batch = some r'.facts.pools) (hu : r.sentence.Unmasked batch)
    (hn : (batch.map fun x => x.id).Nodup) : Reveals c r.sentence batch r'.report := by
  rintro before x after rfl hx ⟨reports, c', last, hcheck, hlast, hno⟩
  have hsplit : before ++ x :: after = (before ++ [x]) ++ after := by simp
  rw [hsplit, Pools.after?_append] at hafter
  obtain ⟨Q, hQ, hrest⟩ := Option.bind_eq_some_iff.mp hafter
  obtain ⟨Qs, hQs, hQlast⟩ := Pools.afterEach?_of_after? hQ
  obtain ⟨c₁, hdoes⟩ := Checker.checkAll_does _ hr hs hd hQs
  obtain ⟨c₂, hok, -⟩ := hdoes c rfl
  obtain ⟨rfl, -⟩ := EStateM.Result.ok.inj (hcheck.symm.trans hok)
  rw [List.getLast?_map, hQlast, Option.map_some] at hlast
  obtain rfl := Option.some.inj hlast
  have hfalse : r.sentence.formula.holds c.registry Q ∅ = false := Truth.eq_false_of_ofBool hno
  have hquiet := hu.behind_plus hn hx
  have hend : r.sentence.formula.holds c.registry r'.facts.pools ∅ = false :=
    Bool.eq_false_iff.mpr fun htrue => Bool.eq_false_iff.mp hfalse
      (hs.wellFormed.holds_of_after? hrest hquiet htrue)
  rw [hs'.report, hsent]
  change Truth.ofBool (r.sentence.formula.holds c.registry r'.facts.pools ∅) = .no
  rw [hend]
  rfl

/-- **Violations are not masked.** In a run of valid events, if predicates never fail, every batch that
an event makes due is submitted and reported on. In such a batch, no change that can make the rule true
stands behind one that can falsify it, unless some earlier change concerns the same context. If all
changes of the batch concern contexts of their own, and processing them one at a time makes the rule
false by a change that can falsify it, then the report says that the rule is false. -/
theorem batches_unmasked {es : List Event} (hes : Stream reg.Accepts {} es L) {e : Event}
    (he : e.Leads reg.Accepts L L') (options : CheckerOptions) :
    ∃ reports σ, performAll es (start .batched options reg) = .ok reports σ ∧
      ∃ due τ reports' σ', e.intake σ = .ok due τ ∧ submitAll due τ = .ok reports' σ' ∧
        e.perform σ = .ok reports' σ' ∧
        List.Forall₂ (fun b report => report.rule = b.1 ∧ ∃ s ∈ L'.rules, s.rule = b.1 ∧
            s.Unmasked b.2 ∧
            ((b.2.map fun x => x.id).Nodup → Reveals τ.checker s b.2 report))
          (due.filter fun b => !b.2.isEmpty) reports' := by
  have hK : ∀ e : Failure, False → e.isPredicate = true := fun _ h => h.elim
  have hA : ∀ s, reg.Accepts s → s.WellFormed ∧ reg.FailsIn (fun _ => False) s.formula :=
    fun s h => h.admits _
  obtain ⟨reports, σ, hok, h⟩ := (tracks_start .batched options reg _).performAll hK hA hes
  obtain ⟨due, τ, hintake, hτ⟩ := h.intake hK hA he
  obtain ⟨reports', σ', hsubmit, -, -, hreported⟩ :=
    (hτ.submitAll fun _ h => h).resolve_right (not_fallsAt hK)
  refine ⟨reports, σ, hok, due, τ, reports', σ', hintake, hsubmit,
    Event.perform_eq_ok.mpr ⟨_, _, hintake, hsubmit⟩, ?_⟩
  refine (List.forall₂_and_left _ _ |>.mpr ⟨fun b hb => hτ.owed b (List.mem_of_mem_filter hb),
    List.forall₂_and_left _ _ |>.mpr ⟨fun b hb => List.mem_of_mem_filter hb, hreported⟩⟩).imp ?_
  rintro ⟨id, batch⟩ report ⟨⟨s, hs, rfl, hu⟩, hb, r, r', hr, hafter, hten', hsent, rfl⟩
  obtain ⟨r₀, Q, hr₀, hten, rfl, -⟩ := hτ.servesDue s hs batch hb
  obtain rfl := Option.some.inj (hr.symm.trans hr₀)
  have hsound : r.Sound τ.checker.engine := hten.resolve_right fun ⟨_, _, h⟩ => h
  have hsound' : r'.Sound τ.checker.engine := hten'.resolve_right fun ⟨_, _, h⟩ => h
  refine ⟨congrArg (fun s => s.rule) hsent, r.sentence, hs, rfl, hu, fun hn => ?_⟩
  have haccepts : reg.Accepts r.sentence := he.admits (hes.admits nofun) _ hs
  exact reveals hr hsound hsound' (hτ.registry.symm ▸ haccepts.2) hsent hafter hu hn

end Scheduler

namespace Sample

/-- The first sensor goes, which could make the rule true. -/
def masking : Event :=
  .schedule (change .deletion 0 "0")

theorem leads_masking : masking.Leads registry.Accepts ledger
    { ledger with pools := ledger.pools.step (change .deletion 0 "0") } :=
  .schedule rfl

/-- The batch that the deletion of the first sensor makes due. -/
def masked : List Change :=
  [change .addition 1 "1", change .addition 2 "0"]

/-- The batches that are due, and the truths after the first of their changes. -/
def unmasking : Routine Scheduler (List (String × List Change) × List Truth) := do
  let _ ← Scheduler.performAll events
  let due ← masking.intake
  let reports ← Scheduler.onChecker (Checker.checkAll "calm" [[change .addition 1 "1"]])
  return (due, reports.map fun report => report.status.truth)

theorem unmasking_value : unmasking.value (Scheduler.start .batched {} registry) =
    .ok ([("calm", masked)], [.no]) := by decide +kernel

end Sample

theorem Scheduler.batches_unmasked_sample : ∃ reports σ report σ',
    performAll Sample.events (start .batched {} Sample.registry) = .ok reports σ ∧
      Sample.masking.perform σ = .ok [report] σ' ∧ Sample.sentence.Unmasked Sample.masked ∧
      (Sample.masked.map fun x => x.id).Nodup ∧
      (Sample.sentence.effect (Sample.change .addition 1 "1")).isPlus = true ∧
      report.status.truth = .no := by
  obtain ⟨reports, σ, hok, due, τ, reports', σ', hintake, -, hperform, hreports⟩ :=
    batches_unmasked Sample.stream_events Sample.leads_masking {}
  -- What the run made due, and what is reported after the first change of it.
  obtain ⟨_, hvalue⟩ := Routine.exists_of_value Sample.unmasking_value
  obtain ⟨_, σ₁, h₁, hvalue⟩ := Routine.bind_eq_ok.mp hvalue
  obtain ⟨-, rfl⟩ := EStateM.Result.ok.inj (hok.symm.trans h₁)
  obtain ⟨due', τ₁, h₂, hvalue⟩ := Routine.bind_eq_ok.mp hvalue
  obtain ⟨rfl, rfl⟩ := EStateM.Result.ok.inj (hintake.symm.trans h₂)
  obtain ⟨singles, τ₂, h₃, hvalue⟩ := Routine.bind_eq_ok.mp hvalue
  obtain ⟨heq, -⟩ := EStateM.Result.ok.inj hvalue
  obtain ⟨rfl, htruths⟩ := Prod.mk.inj heq
  obtain ⟨last, rfl, hno⟩ := List.map_eq_singleton_iff.mp htruths
  obtain ⟨c, hcheck, -⟩ := Routine.exists_of_onPart h₃
  -- The batch is reported on once.
  cases hreports with
  | cons hreport hrest =>
    obtain rfl := List.forall₂_nil_left_iff.mp hrest
    obtain ⟨-, s, hs, -, hu, hreveals⟩ := hreport
    obtain rfl := List.mem_singleton.mp hs
    refine ⟨reports, σ, _, σ', hok, hperform, hu, by decide, by decide, ?_⟩
    exact hreveals (by decide) [] _ [Sample.change .addition 2 "0"] rfl (by decide)
      ⟨[last], c, last, hcheck, rfl, hno⟩

end RuleMonitor
