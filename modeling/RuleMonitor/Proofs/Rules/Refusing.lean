import RuleMonitor.Proofs.Rules.Explaining
import RuleMonitor.Proofs.Rules.Recovering
import RuleMonitor.Proofs.Rules.Requests

/-!
# Batches that are refused

A batch clashes with the facts of a rule if one of its changes adds a context that is live by then, or
deletes or updates one that is not. Whatever the strategy, such a batch is refused with a violation of
consistency, even if a predicate failed on a change before the one that clashes. Where predicates fail
with nothing but errors of their own, all other batches are reported on.

* `Pools.Clashes`, `Pools.clashes_iff`: the batches that are not valid.
* **`Rule.process_refuses`**: a batch that clashes violates the consistency of a rule.
* `Checker.Proceeds`: the states that calls lead to which succeed, whether or not predicates failed.
* **`Checker.checkBatch_refuses_iff`**: the batches that are refused in these states.
-/

namespace RuleMonitor

open Std (ExtTreeMap)

/-! ## Changes that clash -/

/-- The change adds a context that is live, or deletes or updates one that is not. -/
def Change.Clashes (c : Change) (P : Pools) : Prop :=
  match c.kind with
  | .addition => (P.live? c.pattern c.id).isSome = true
  | .deletion | .update => P.live? c.pattern c.id = none

theorem Change.clashes_iff {c : Change} {P : Pools} : c.Clashes P ↔ c.isValid P = false := by
  rw [Bool.eq_false_iff, Ne, Pools.isValid_iff]
  unfold Clashes
  cases hl : P.live? c.pattern c.id <;> cases c.kind <;> simp

namespace Pools

variable {P : Pools} {batch : List Change}

/-- Some change of the batch clashes with what the changes before it left of the pools. -/
def Clashes (P : Pools) (batch : List Change) : Prop :=
  ∃ before c after, batch = before ++ c :: after ∧ c.Clashes (before.foldl step P)

theorem not_clashes_nil : ¬P.Clashes [] := by
  rintro ⟨before, c, after, h, -⟩
  cases before <;> cases h

theorem clashes_cons {c : Change} : P.Clashes (c :: batch) ↔ c.Clashes P ∨ (P.step c).Clashes batch := by
  constructor
  · rintro ⟨before, c', after, h, hc⟩
    cases before with
    | nil =>
      cases h
      exact .inl hc
    | cons b before =>
      cases h
      exact .inr ⟨before, c', after, rfl, hc⟩
  · rintro (hc | ⟨before, c', after, rfl, hc⟩)
    · exact ⟨[], c, batch, rfl, hc⟩
    · exact ⟨c :: before, c', after, rfl, hc⟩

theorem clashes_iff : P.Clashes batch ↔ P.after? batch = none := by
  induction batch generalizing P with
  | nil => exact ⟨fun h => absurd h not_clashes_nil, nofun⟩
  | cons c rest ih =>
    rw [clashes_cons, Change.clashes_iff, ih, after?_cons]
    cases c.isValid P <;> simp

end Pools

/-! ## Stores and rules that refuse -/

theorem FactStore.apply_refuses {s : FactStore} {c : Change} (h : c.isValid s.pools = false) :
    ∃ text s', FactStore.apply c s = .error (.inconsistent text) s' := by
  cases ha : FactStore.apply c s with
  | ok u s' => exact absurd (isValid_of_apply ha) (Bool.eq_false_iff.mp h)
  | error e s' =>
    obtain ⟨text, rfl⟩ := apply_error ha
    exact ⟨text, s', rfl⟩

theorem FactStore.applyBatch_refuses {s : FactStore} {batch : List Change}
    (h : s.pools.after? batch = none) :
    ∃ text s', FactStore.applyBatch batch s = .error (.inconsistent text) s' := by
  cases ha : FactStore.applyBatch batch s with
  | ok u s' =>
    obtain ⟨Q, hQ⟩ := after?_of_applyBatch ha
    cases h.symm.trans hQ
  | error e s' =>
    obtain ⟨text, rfl⟩ := applyBatch_error ha
    exact ⟨text, s', rfl⟩

namespace Cycle

variable {α β : Type} {r : Rule}

/-- A part of a cycle ends with a violation of consistency. -/
def Refuses (x : Routine Cycle α) (r : Rule) : Prop :=
  ∃ text facts tree, Breaks x r (.inconsistent text) { r with facts, tree }

theorem Refuses.bind {x : Routine Cycle α} (hx : Refuses x r) (f : α → Routine Cycle β) :
    Refuses (x >>= f) r := by
  obtain ⟨text, facts, tree, hb⟩ := hx
  exact ⟨text, facts, tree, hb.bind f⟩

/-- After a part that leaves the sentence and the status alone, a refusal is handed on. -/
theorem Turns.bind_refuses {x : Routine Cycle α} {f : α → Routine Cycle β} {a : α} {r₁ : Rule}
    (hx : Turns x r a r₁) (hf : Refuses (f a) r₁)
    (hr : ∀ facts tree, { r₁ with facts, tree } = { r with facts, tree }) :
    Refuses (x >>= f) r := by
  obtain ⟨text, facts, tree, hb⟩ := hf
  exact ⟨text, facts, tree, hx.bind_breaks (hr facts tree ▸ hb)⟩

theorem Leads.refuses {x y : Routine Cycle α} (h : Leads x r y r) (hy : Refuses y r) : Refuses x r := by
  obtain ⟨text, facts, tree, hb⟩ := hy
  exact ⟨text, facts, tree, h.breaks hb⟩

theorem refuses_applyBatch {batch : List Change} (h : r.facts.pools.after? batch = none) :
    Refuses (onFacts (FactStore.applyBatch batch)) r := by
  obtain ⟨text, facts, ha⟩ := FactStore.applyBatch_refuses h
  exact ⟨text, facts, r.tree, breaks_onFacts ha⟩

end Cycle

namespace Rule

open RuleMonitor.Cycle (Refuses)

variable {engine : Engine} {r : Rule} {change : Change} {batch : List Change}

theorem cycleFull_refuses (h : r.facts.pools.after? batch = none) (concurrent : Bool) :
    Refuses (cycleFull engine batch concurrent) r :=
  (Cycle.refuses_applyBatch h).bind _

theorem cycleBatch_refuses (h : r.facts.pools.after? batch = none) (concurrent : Bool) :
    Refuses (cycleBatch engine batch concurrent) r :=
  (Cycle.refuses_applyBatch h).bind _

/-- An update that clashes is refused, any other change is the only step that it is processed as. -/
theorem stepsOf_refuses_or_turns (hv : change.isValid r.facts.pools = false) :
    Refuses (stepsOf change) r ∨ Cycle.Turns (stepsOf change) r [change] r := by
  unfold stepsOf
  cases hk : change.kind with
  | addition | deletion => exact .inr (Cycle.turns_pure _ _)
  | update =>
    have hnone : r.facts.get? change.pattern change.id = none := by
      have hc := Change.clashes_iff.mpr hv
      unfold Change.Clashes at hc
      rwa [hk] at hc
    refine .inl ⟨s!"updating context `{change.context.name}` absent from `{change.pattern}`",
      r.facts, r.tree, Cycle.breaks_get fun c hc => ?_⟩
    rw [hc, hnone]
    exact Cycle.breaks_throw _ _

/-! ## Changes one at a time -/

/-- An addition or deletion that clashes is refused, whether or not an earlier step failed. -/
theorem takeStep_refuses (hv : change.isValid r.facts.pools = false) (failed : Option Error) :
    Refuses (takeStep engine failed change) r := by
  cases failed with
  | some e =>
    obtain ⟨text, facts, ha⟩ := FactStore.apply_refuses hv
    exact ⟨text, facts, r.tree, (Cycle.breaks_onFacts ha).bind _⟩
  | none =>
    have hnone : r.facts.clearDeltas.pools.after? [change] = none := by
      rw [Pools.after?_cons]
      exact if_neg (Bool.eq_false_iff.mp hv)
    obtain ⟨text, facts, ha⟩ := FactStore.applyBatch_refuses hnone
    refine ⟨text, facts, r.tree, ?_⟩
    have hstep : Cycle.Breaks (stepChange engine change) r (.inconsistent text) { r with facts } :=
      (Cycle.turns_modifyFacts FactStore.clearDeltas r).bind_breaks
        ((Cycle.breaks_onFacts (r := { r with facts := r.facts.clearDeltas }) ha).bind _)
    exact hstep.attempt.bind_breaks (Cycle.breaks_throw _ _)

/-- A change that clashes is refused, whether or not an earlier one failed. -/
theorem refuses_of_clash {α : Type} (hv : change.isValid r.facts.pools = false) (failed : Option Error)
    (f : Option Error → Routine Cycle α) : Refuses (do
      let steps ← stepsOf change
      let failed ← takeSteps engine failed steps
      f failed) r := by
  rcases stepsOf_refuses_or_turns hv with hrefuses | hturns
  · exact hrefuses.bind _
  · have hsteps : Refuses (takeSteps engine failed [change]) r := (takeStep_refuses hv failed).bind _
    exact hturns.bind_refuses (hsteps.bind _) fun _ _ => rfl

/-- After a failure that was handed on, changes only reach the facts, and are refused there. -/
theorem takeChanges_refuses_failed (e : Error) (h : r.Proper)
    (hn : r.facts.pools.after? batch = none) : Refuses (takeChanges engine (some e) batch) r := by
  induction batch generalizing r with
  | nil => cases hn
  | cons change rest ih =>
    cases hv : change.isValid r.facts.pools with
    | false => exact refuses_of_clash hv _ _
    | true =>
      rw [Pools.after?_cons, if_pos hv] at hn
      obtain ⟨steps, hsteps, -, hafter, -⟩ := stepsOf_turns h hv
      obtain ⟨facts, hturns, hP⟩ := takeSteps_turns_failed engine (e := e) steps hafter
      have hrest := ih (r := { r with facts }) ⟨h.wellFormed, hP ▸ h.keyed.step change⟩ (hP ▸ hn)
      exact hsteps.bind_refuses (hturns.bind_refuses hrest fun _ _ => rfl) fun _ _ => rfl

/-- **Changes are refused** if one of them clashes, even if a predicate failed on one before it. -/
theorem takeChanges_refuses (h : r.Upright engine)
    (hf : engine.registry.FailsIn (fun e => e.isPredicate = true) r.sentence.formula)
    (hn : r.facts.pools.after? batch = none) : Refuses (takeChanges engine none batch) r := by
  induction batch generalizing r with
  | nil => cases hn
  | cons change rest ih =>
    cases hv : change.isValid r.facts.pools with
    | false => exact refuses_of_clash hv _ _
    | true =>
      rw [Pools.after?_cons, if_pos hv] at hn
      obtain ⟨steps, hsteps, hk, hafter, -⟩ := stepsOf_turns h.toProper hv
      refine hsteps.bind_refuses ?_ fun _ _ => rfl
      by_cases he : ∀ P ∈ r.facts.pools.trail steps, r.sentence.formula.Evaluates engine.registry P ∅
      · obtain ⟨facts, tree, hturns, hP, hr⟩ := takeSteps_brings steps h hk hafter he
        exact hturns.bind_refuses (ih hr hf (hP ▸ hn)) fun _ _ => rfl
      · rcases takeSteps_handsOn (fun c hc => nomatch hc) steps h hk hafter
          (h.wellFormed.answers hf) he with
          ⟨e, facts, tree, -, -, hturns, hP⟩ | ⟨e, facts, tree, hlocal, hstops, -⟩
        · exact hturns.bind_refuses (takeChanges_refuses_failed e
            ⟨h.wellFormed, hP ▸ h.keyed.step change⟩ (hP ▸ hn)) fun _ _ => rfl
        · exact absurd ((Failure.stops_of_isPredicate hlocal).symm.trans hstops) Bool.false_ne_true

/-- **A batch that clashes** violates the consistency of a rule, by every strategy. -/
theorem process_refuses (h : r.Rests engine)
    (hf : engine.registry.FailsIn (fun e => e.isPredicate = true) r.sentence.formula)
    (hn : r.facts.pools.after? batch = none) (strategy : Strategy) :
    Refuses (process engine strategy batch) r := by
  refine process_leads.refuses ?_
  split_ifs with hrebuild
  · exact cycleFull_refuses hn false
  · have hu := h.upright_of_not_rebuilt hrebuild
    cases strategy with
    | full => exact cycleFull_refuses hn false
    | fullConcurrent => exact cycleFull_refuses hn true
    | change => exact (takeChanges_refuses hu hf hn).bind _
    | batch => exact cycleBatch_refuses hn false
    | batchConcurrent => exact cycleBatch_refuses hn true

theorem cycle_refuses (h : r.Rests engine)
    (hf : engine.registry.FailsIn (fun e => e.isPredicate = true) r.sentence.formula)
    (hn : r.facts.pools.after? batch = none) (strategy : Strategy) :
    ∃ text r', Cycle.Breaks (cycle engine strategy batch) r (.inconsistent text) r' := by
  obtain ⟨text, facts, tree, hb⟩ := process_refuses h hf hn strategy
  exact ⟨text, _, cycle_breaks_of_process hb rfl⟩

theorem valid_of_cycle (h : r.Rests engine)
    (hf : engine.registry.FailsIn (fun e => e.isPredicate = true) r.sentence.formula)
    {strategy : Strategy} {u : Unit} {c' : Cycle}
    (hok : cycle engine strategy batch { rule := r } = .ok u c') :
    ∃ Q, r.facts.pools.after? batch = some Q := by
  refine Option.ne_none_iff_exists'.mp fun hn => ?_
  obtain ⟨text, r', hb⟩ := cycle_refuses h hf hn strategy
  obtain ⟨c₁, h₁, -⟩ := hb { rule := r } rfl
  cases h₁.symm.trans hok

/-! ## Replacements that succeed -/

theorem exchangeable_of_swap {facts facts' : FactStore} {p : String} {old new : Context} {u : Unit}
    (hlive : facts.pools.live? p old.id = some old)
    (hok : FactStore.swap p old.id new facts = .ok u facts') : facts.pools.Exchangeable p old new := by
  refine ⟨hlive, fun hne => ?_⟩
  have hold : (facts.pool p).contains old.id = true :=
    (facts.pools.contains_pool p old.id).trans (by rw [hlive]; rfl)
  unfold FactStore.swap at hok
  rw [Routine.get_bind] at hok
  simp only [hold, if_true] at hok
  cases hnew : ((facts.pool p).erase old.id).contains new.id with
  | true =>
    rw [hnew] at hok
    cases hok
  | false =>
    rw [ExtTreeMap.contains_eq_isSome_getElem?, Map.getElem?_erase, if_neg fun e => hne e.symm,
      Option.isSome_eq_false_iff, Option.isNone_iff_eq_none] at hnew
    exact hnew

theorem exists_of_swapBranches {p v : String} {del add : Context} {branches : List Nat} {u : Unit}
    {c c' : Cycle} (hok : swapBranches p v del add branches c = .ok u c') :
    ∃ facts, FactStore.swap p del.id add c.rule.facts = .ok ⟨⟩ facts := by
  have htree : ∀ x : Routine Tree Unit,
      Routine.Keeps (fun _ => True) (fun c : Cycle => c.rule.facts) (Cycle.onTree x) :=
    fun x => Routine.keeps_onPart (fun _ _ _ => by rfl) (Routine.keeps_any x)
  obtain ⟨_, c₁, h₁, hok⟩ := Routine.bind_eq_ok.mp hok
  rw [← (Routine.keeps_forM (fun _ => htree _) branches).ok h₁]
  dsimp only at hok
  split_ifs at hok
  · obtain ⟨_, c₂, h₂, hok⟩ := Routine.bind_eq_ok.mp hok
    obtain ⟨_, c₃, h₃, -⟩ := Routine.bind_eq_ok.mp hok
    rw [← (htree _).ok h₂]
    exact exists_of_onFacts h₃
  · obtain ⟨_, c₃, h₃, -⟩ := Routine.bind_eq_ok.mp hok
    exact exists_of_onFacts h₃

end Rule

/-! ## States reached by calls that succeed -/

namespace Checker

variable {c c' : Checker} {s : Sentence} {reg : Registry}

/-- Calls that succeed lead to a checker with a rule for a sentence. The reports may have told of
predicates that failed. What a probe found is replaced as long as the rule is not to be rebuilt. The
strategy may change in between, and whatever happens to other rules does not matter. -/
inductive Proceeds (reg : Registry) (s : Sentence) : Checker → Prop
  | added {c c' : Checker} {facts : List Change} {report : Report} (hreg : c.registry = reg)
      (hok : addRule s facts c = .ok report c') : Proceeds reg s c'
  | checked {c c' : Checker} {batch : List Change} {report : Report} (hc : Proceeds reg s c)
      (hok : checkBatch s.rule batch c = .ok report c') : Proceeds reg s c'
  | replaced {c c' : Checker} {r : Rule} {p : String} {del add : Context} {rep : Replacement}
      (hc : Proceeds reg s c) (hr : c.rules[s.rule]? = some r) (hclean : r.dirty = false)
      (hlive : r.facts.pools.live? p del.id = some del)
      (hprobe : c.probe s.rule p del add = .ok (some rep)) (hok : replace rep c = .ok () c') :
      Proceeds reg s c'
  | other {c c' : Checker} (hc : Proceeds reg s c) (hreg : c'.registry = c.registry)
      (hmin : c'.options.minimalLinks = c.options.minimalLinks)
      (hrule : c'.rules[s.rule]? = c.rules[s.rule]?) : Proceeds reg s c'

/-- **The rule is tenable** in every state that calls which succeed lead to. -/
theorem Proceeds.tenable (hs : s.WellFormed) (hf : reg.FailsLocally) (h : Proceeds reg s c) :
    c.registry = reg ∧ ∃ r, c.rules[s.rule]? = some r ∧
      r.Tenable c.engine (fun e => e.isPredicate = true) ∧ r.sentence = s := by
  induction h with
  | @added c c' facts report hreg hok =>
    subst hreg
    obtain ⟨cycle, hcycle, -, hr, hreg', he⟩ := exists_of_addRule hok
    have hrests := Rule.rests_new hs c.engine
    obtain ⟨Q, hQ⟩ := Rule.valid_of_cycle hrests (hf.failsIn _) hcycle
    obtain ⟨r, hturns, hten, hsent, -⟩ :=
      Rule.cycle_recovers (fun _ h => h) hrests (hf.failsIn _) hQ .full
    obtain ⟨c₁, h₁, rfl⟩ := hturns { rule := { sentence := s } } rfl
    cases h₁.symm.trans hcycle
    have hid : cycle.rule.id = s.rule := congrArg (fun s => s.rule) hsent
    exact ⟨hreg', cycle.rule, hid ▸ hr, he ▸ hten, hsent⟩
  | @checked c c' batch report _ hok ih =>
    obtain ⟨rfl, r, hr, hten, hsent⟩ := ih
    obtain ⟨r₀, cycle, hr₀, hcycle, -, hr', hreg', he⟩ := exists_of_checkBatch hok
    obtain rfl := Option.some.inj (hr.symm.trans hr₀)
    obtain ⟨Q, hQ⟩ := Rule.valid_of_cycle hten.rests (hf.failsIn _) hcycle
    obtain ⟨r', hturns, hten', hsent', -⟩ := Rule.cycle_recovers (fun _ h => h) hten.rests
      (hf.failsIn _) hQ c.options.strategy
    obtain ⟨c₁, h₁, rfl⟩ := hturns { rule := r } rfl
    cases h₁.symm.trans hcycle
    exact ⟨hreg', cycle.rule, hr', he ▸ hten', hsent'.trans hsent⟩
  | @replaced c c' r₀ p del add rep _ hr₀ hclean hlive hprobe hok ih =>
    obtain ⟨hreg, r, hr, hten, rfl⟩ := ih
    obtain rfl := Option.some.inj (hr.symm.trans hr₀)
    have hsound : r.Sound c.engine := hten.resolve_right fun h =>
      absurd (hclean.symm.trans h.1.dirty) Bool.false_ne_true
    have hsuits := suits_of_probe hr hsound hlive hprobe
    have hx : r.facts.pools.Exchangeable p del add := by
      obtain ⟨rfl, rfl, rfl, n, -, -, hfits⟩ := hsuits
      obtain ⟨r₁, cycle, hr₁, hswap, -⟩ := exists_of_onRule hok
      rw [show rep.rule = r.sentence.rule from hfits.rule] at hr₁
      obtain rfl := Option.some.inj (hr.symm.trans hr₁)
      obtain ⟨facts, hfacts⟩ := Rule.exists_of_swapBranches hswap
      exact Rule.exchangeable_of_swap hlive hfacts
    obtain ⟨r', hdoes, hr', hsent, -⟩ := replace_does hr hsound hx hsuits
    obtain ⟨-, hb⟩ := hdoes.unique hok
    obtain ⟨r'', hr'', hs'', hsent'', -⟩ := monitors_insert hb hr' hsent rfl
    exact ⟨(registry_eq_of_bare hb).trans hreg, r'', hr'', .inl hs'', hsent''⟩
  | @other c c' _ hreg hmin hrule ih =>
    have he : c'.engine = c.engine := by
      unfold engine
      rw [hreg, hmin]
    rw [hreg, hrule, he]
    exact ih

/-- **Batches that clash, and only those, are refused.** Where predicates fail with nothing but errors
of their own, whatever the options of the checker and whether or not the rule is to be rebuilt, a batch
is answered with an error if and only if it clashes with the facts of the rule. The error is then a
fatal violation of consistency. -/
theorem checkBatch_refuses_iff {d : Draft} {root : Nat} (hs : d.build root = .ok s)
    (hf : reg.FailsLocally) (h : Proceeds reg s c) (batch : List Change) :
    ∃ r, c.rules[s.rule]? = some r ∧ r.sentence = s ∧
      ((∃ e c', checkBatch s.rule batch c = .error e c') ↔ r.facts.pools.Clashes batch) ∧
      ∀ e c', checkBatch s.rule batch c = .error e c' →
        ∃ error text, e = .error error ∧ error.kind = .inconsistent text ∧ error.isFatal = true := by
  obtain ⟨rfl, r, hr, hten, rfl⟩ := h.tenable (Sentence.wellFormed_of_build hs) hf
  refine ⟨r, hr, rfl, ?_⟩
  rw [Pools.clashes_iff]
  cases hQ : r.facts.pools.after? batch with
  | some Q =>
    obtain ⟨r', hdoes, -⟩ := checkBatch_tenable (fun _ h => h) hr hten (hf.failsIn _) hQ
    exact ⟨⟨fun ⟨e, c', herror⟩ => absurd herror (hdoes.ne_error e c'), nofun⟩,
      fun e c' herror => absurd herror (hdoes.ne_error e c')⟩
  | none =>
    obtain ⟨text, r', hbreaks⟩ :=
      Rule.cycle_refuses hten.rests (hf.failsIn _) hQ c.options.strategy
    have hstops := stops_checkBatch hr hbreaks
    obtain ⟨c₁, h₁, -⟩ := hstops c rfl
    refine ⟨⟨fun _ => rfl, fun _ => ⟨_, c₁, h₁⟩⟩, fun e c' herror => ?_⟩
    obtain ⟨rfl, -⟩ := hstops.unique herror
    exact ⟨_, text, rfl, rfl, rfl⟩

end Checker

/-! ## A sample -/

namespace Sample

/-- A rule with a predicate that may fail, registered over a sensor. -/
def manned : Checker :=
  (Checker.addRule sentence [change .addition 0 "0"]).after frailChecker

/-- A sensor that the predicate fails on, and then one that is there already. -/
def clashing : List Change :=
  [unread, change .addition 0 "1"]

end Sample

theorem Checker.checkBatch_refuses_iff_sample : ∃ error c' text,
    checkBatch "calm" Sample.clashing Sample.manned = .error (.error error) c' ∧
      error.kind = .inconsistent text := by
  have hadded : addRule Sample.sentence [Sample.change .addition 0 "0"] Sample.frailChecker =
      .ok ⟨"calm", ⟨.yes, []⟩, none⟩ Sample.manned := rfl
  have hpools : (Sample.manned.rules["calm"]?).map (·.facts.pools) =
      some ((∅ : Pools).step (Sample.change .addition 0 "0")) := rfl
  obtain ⟨r, hr, -, hiff, hfatal⟩ := checkBatch_refuses_iff Sample.build_draft
    Sample.frailChecker_failsLocally (.added rfl hadded) Sample.clashing
  rw [show Sample.manned.rules["calm"]? = some r from hr] at hpools
  have hclash : r.facts.pools.Clashes Sample.clashing := by
    rw [show r.facts.pools = _ from Option.some.inj hpools]
    exact ⟨[Sample.unread], _, [], rfl, rfl⟩
  obtain ⟨e, c', herror⟩ := hiff.mpr hclash
  obtain ⟨error, text, rfl, hkind, -⟩ := hfatal e c' herror
  exact ⟨error, c', text, herror, hkind⟩

end RuleMonitor
