import RuleMonitor.Proofs.Rules.Recovering

/-!
# Rules that report alike

Two rules may have come to the same facts and the same status in different ways, so that the branches
of their instantiations stand in different orders. That cannot be told from what is reported later on,
except that of several predicates that fail, another one may be met first.

* `Rule.Twins`: two rules with the same sentence, facts and status; **`Rule.Twins.cycle`**: a cycle of
  both.
* `Report.Alike`: reports that differ in nothing but the text of an error.
* `Checker.AlikeOn`: two checkers report alike on one batch after the other;
  **`Checker.alikeOn_of_twins`**: those with twins do.
-/

namespace RuleMonitor

open Std (ExtTreeMap)

/-- The reports differ in nothing but the text of an error. -/
structure Report.Alike (a b : Report) : Prop where
  rule : a.rule = b.rule
  status : a.status = b.status
  error : a.error.isSome = b.error.isSome

namespace Rule

variable {engine : Engine} {r r' : Rule} {Q : Pools} {batch : List Change} {strategy : Strategy}
  {K : Failure → Prop}

/-! ## Twins -/

/-- The rules have the same sentence, facts and status, and either both are sound or both are to be
rebuilt. -/
structure Twins (engine : Engine) (r r' : Rule) : Prop where
  sentence : r'.sentence = r.sentence
  pools : r'.facts.pools = r.facts.pools
  status : r'.status = r.status
  state : r.Sound engine ∧ r'.Sound engine ∨ r.Spoilt ∧ r'.Spoilt

theorem Sound.twins (h : r.Sound engine) (h' : r'.Sound engine) (hsent : r'.sentence = r.sentence)
    (hpools : r'.facts.pools = r.facts.pools) : r.Twins engine r' :=
  ⟨hsent, hpools, by rw [h.status, h'.status, hsent, hpools], .inl ⟨h, h'⟩⟩

theorem Sound.kept (h : r.Sound engine) : (r.dirty || r.tree.root.isNone) = false := by
  obtain ⟨n, hn, -⟩ := h.tree
  rw [h.clean, hn.root]
  rfl

namespace Twins

theorem symm (h : r.Twins engine r') : r'.Twins engine r :=
  ⟨h.sentence.symm, h.pools.symm, h.status.symm, h.state.imp And.symm And.symm⟩

theorem rests (h : r.Twins engine r') : r.Rests engine :=
  h.state.elim (fun h => h.1.rests) fun h => h.1.rests engine

theorem report (h : r.Twins engine r') : r.report.Alike r'.report := by
  refine ⟨congrArg (fun s => s.rule) h.sentence.symm, h.status.symm, ?_⟩
  change r.lastError.isSome = r'.lastError.isSome
  rcases h.state with ⟨hs, hs'⟩ | ⟨hs, hs'⟩
  · rw [hs.noError, hs'.noError]
  · rw [hs.error, hs'.error]

theorem kept (h : r.Twins engine r') :
    (r'.dirty || r'.tree.root.isNone) = (r.dirty || r.tree.root.isNone) := by
  rcases h.state with ⟨hs, hs'⟩ | ⟨hs, hs'⟩
  · rw [hs.kept, hs'.kept]
  · rw [hs.dirty, hs'.dirty]
    rfl

theorem clears (h : r.Twins engine r') (hc : r.Clears engine strategy batch Q) :
    r'.Clears engine strategy batch Q := by
  unfold Clears
  rw [h.sentence, h.pools, h.kept]
  exact hc

end Twins

/-- **A cycle of twins** leaves twins, or both cycles fail, one of them with something else than a
predicate. -/
theorem Twins.cycle (h : r.Twins engine r') (hK : Failure.CrashClosed K)
    (hf : engine.registry.FailsIn K r.sentence.formula)
    (hQ : r.facts.pools.after? batch = some Q) (strategy : Strategy) :
    (∃ s s', Cycle.Turns (cycle engine strategy batch) r ⟨⟩ s ∧
      Cycle.Turns (cycle engine strategy batch) r' ⟨⟩ s' ∧ s.Twins engine s' ∧
      s.sentence = r.sentence ∧ s.facts.pools = Q) ∨
    Fails K (cycle engine strategy batch) r Q ∧ Fails K (cycle engine strategy batch) r' Q ∧
      ((∃ e s, K e ∧ e.isPredicate = false ∧ Cycle.Breaks (cycle engine strategy batch) r e s) ∨
        ∃ e s, K e ∧ e.isPredicate = false ∧ Cycle.Breaks (cycle engine strategy batch) r' e s) := by
  have hQ' : r'.facts.pools.after? batch = some Q := h.pools ▸ hQ
  by_cases hc : r.Clears engine strategy batch Q
  · obtain ⟨s, hs, hsound, hsent, hpools⟩ :=
      cycle_turns_of_brings (process_brings_of_clears h.rests hQ hc)
    obtain ⟨s', hs', hsound', hsent', hpools'⟩ :=
      cycle_turns_of_brings (process_brings_of_clears h.symm.rests hQ' (h.clears hc))
    exact .inl ⟨s, s', hs, hs', hsound.twins hsound' (hsent'.trans (h.sentence.trans hsent.symm))
      (hpools'.trans hpools.symm), hsent, hpools⟩
  · have ha := h.rests.wellFormed.answers hf
    have hfails := fails_of_spoils h.rests.toProper hQ (process_spoils hK h.rests hQ ha hc)
    have hfails' := fails_of_spoils h.symm.rests.toProper hQ' (process_spoils hK h.symm.rests hQ'
      (h.sentence.symm ▸ ha) fun hc' => hc (h.symm.clears hc'))
    have hends := And.intro hfails hfails'
    cases hfails with
    | stops e s hkind hserious hb =>
      exact .inr ⟨hends.1, hends.2, .inl ⟨e, s, hkind, hserious, hb⟩⟩
    | aborts e s hkind hpred hturns hspoilt hsent hpools hstatus herror =>
      cases hfails' with
      | stops e' s' hkind' hserious' hb' =>
        exact .inr ⟨hends.1, hends.2, .inr ⟨e', s', hkind', hserious', hb'⟩⟩
      | aborts e' s' hkind' hpred' hturns' hspoilt' hsent' hpools' hstatus' herror' =>
        exact .inl ⟨s, s', hturns, hturns', ⟨hsent'.trans (h.sentence.trans hsent.symm),
          hpools'.trans hpools.symm, hstatus'.trans (h.status.trans hstatus.symm),
          .inr ⟨hspoilt, hspoilt'⟩⟩, hsent, hpools⟩

end Rule

/-! ## Checkers with twins -/

namespace Checker

variable {c d : Checker} {id : String} {batch : List Change} {K : Failure → Prop}

/-- A check of a batch fails: it is not reported, or with an error. -/
def FailsOn (c : Checker) (id : String) (batch : List Change) : Prop :=
  ∀ report c', checkBatch id batch c = .ok report c' → report.error.isSome = true

/-- The checkers report alike on a rule, on one batch after the other. If predicates fail with more than
errors of their own, that ends with a batch on which both checks fail, one of them for good. -/
def AlikeOn (id : String) : List (List Change) → Checker → Checker → Prop
  | [], _, _ => True
  | batch :: rest, c, d =>
    (∃ a b c' d', checkBatch id batch c = .ok a c' ∧ checkBatch id batch d = .ok b d' ∧ a.Alike b ∧
      AlikeOn id rest c' d') ∨
    ¬c.registry.FailsLocally ∧ c.FailsOn id batch ∧ d.FailsOn id batch ∧
      ((∃ e c', checkBatch id batch c = .error e c') ∨ ∃ e d', checkBatch id batch d = .error e d')

theorem checkBatch_error {r r' : Rule} {e : Failure} (hr : c.rules[id]? = some r)
    (h : Cycle.Breaks (Rule.cycle c.engine c.options.strategy batch) r e r') :
    ∃ c', checkBatch id batch c = .error e c' := by
  obtain ⟨c', herror, -⟩ := stops_checkBatch hr h c rfl
  exact ⟨c', herror⟩

theorem failsOn_of_fails {r : Rule} {Q : Pools} (hr : c.rules[id]? = some r)
    (h : Rule.Fails K (Rule.cycle c.engine c.options.strategy batch) r Q) : c.FailsOn id batch := by
  intro report c' hok
  cases h with
  | aborts e r' _ _ hturns hspoilt =>
    obtain ⟨rfl, -⟩ := (does_checkBatch hr hturns).unique hok
    exact hspoilt.error
  | stops e r' _ _ hbreaks =>
    obtain ⟨c'', herror⟩ := checkBatch_error hr hbreaks
    rw [herror] at hok
    cases hok

/-- **Checkers with twins** report alike on valid batches. -/
theorem alikeOn_of_twins (batches : List (List Change)) : ∀ {c d : Checker} {r r' : Rule}
    {pools : List Pools}, c.rules[id]? = some r → d.rules[id]? = some r' → r.Twins c.engine r' →
    d.registry = c.registry → d.options = c.options →
    r.facts.pools.afterEach? batches = some pools → AlikeOn id batches c d := by
  induction batches with
  | nil => exact fun _ _ _ _ _ _ => trivial
  | cons batch rest ih =>
    intro c d r r' pools hr hr' htwins hreg hopt hv
    obtain ⟨Q, hQ, hv⟩ := Option.bind_eq_some_iff.mp hv
    obtain ⟨Qs, hQs, -⟩ := Option.bind_eq_some_iff.mp hv
    have hengine : d.engine = c.engine := by
      unfold engine
      rw [hreg, hopt]
    -- Failures of any kind are possible, unless the predicates fail locally.
    let K : Failure → Prop := fun e => c.registry.FailsLocally → e.isPredicate = true
    have hK : Failure.CrashClosed K := fun _ h hl => absurd (h hl) Bool.false_ne_true
    have hf : c.engine.registry.FailsIn K r.sentence.formula :=
      fun a ha env hv e he hl => hl.failsIn _ a ha env hv e he
    have hserious : ∀ {e : Failure}, K e → e.isPredicate = false → ¬c.registry.FailsLocally :=
      fun hk hs hl => Bool.false_ne_true (hs.symm.trans (hk hl))
    rcases htwins.cycle hK hf hQ c.options.strategy with
      ⟨s, s', hs, hs', htwins', hsent, rfl⟩ | ⟨hfails, hfails', hstop⟩
    · rw [← hengine, ← hopt] at hs'
      obtain ⟨c', hok, hb⟩ := does_checkBatch hr hs c rfl
      obtain ⟨d', hok', hb'⟩ := does_checkBatch hr' hs' d rfl
      have hrule : c'.rules[id]? = some s := by
        rw [rules_eq_of_bare hb, ExtTreeMap.getElem?_insert_self]
      have hrule' : d'.rules[id]? = some s' := by
        rw [rules_eq_of_bare hb', ExtTreeMap.getElem?_insert_self]
      refine .inl ⟨_, _, c', d', hok, hok', htwins'.report, ih hrule hrule' ?_ ?_ ?_ hQs⟩
      · rw [engine_eq_of_bare hb]
        exact htwins'
      · rw [registry_eq_of_bare hb, registry_eq_of_bare hb']
        exact hreg
      · rw [options_eq_of_bare hb, options_eq_of_bare hb']
        exact hopt
    · rw [← hengine, ← hopt] at hfails'
      refine .inr ⟨?_, failsOn_of_fails hr hfails, failsOn_of_fails hr' hfails', ?_⟩
      · rcases hstop with ⟨e, s, hk, hs, -⟩ | ⟨e, s, hk, hs, -⟩ <;> exact hserious hk hs
      · rcases hstop with ⟨e, s, -, -, hb⟩ | ⟨e, s, -, -, hb⟩
        · exact .inl ⟨e, checkBatch_error hr hb⟩
        · rw [← hengine, ← hopt] at hb
          exact .inr ⟨e, checkBatch_error hr' hb⟩

end Checker

end RuleMonitor
