import RuleMonitor.Proofs.Rules.Steps

/-!
# Strategies

A strategy brings a rule to the pools after a batch: its facts have them, and its instantiation is
right for them. If the formula does not evaluate over these pools, or over pools that the strategy
passes through, it spoils the rule: the facts still have the pools after the batch, unless the run
must stop, but nothing is known of the instantiation.

* `Rule.Upright`: a rule with an instantiation that is right.
* `Cycle.Brings`, `Cycle.Spoils`: a part of a cycle brings a rule to pools, or spoils it.
* `Rule.judgeBatch`, `Rule.judgeChange`: cycles until their links are generated.
* **`Rule.cycleFull_brings`**, **`Rule.cycleFull_spoils`**: rebuilding.
* **`Rule.cycleBatch_brings`**, **`Rule.cycleBatch_spoils`**: a whole batch at once.
* **`Rule.cycleChanges_brings`**, **`Rule.cycleChanges_spoils`**: one change after the other.
-/

namespace RuleMonitor

open Std (ExtTreeMap ExtTreeSet)

/-- The run must stop after the failure. -/
def Failure.stops : Failure → Bool
  | .error e => e.isFatal
  | .crash _ => true

/-! ## Instantiations brought up to date -/

/-- The sentence of a rule is well formed, and the contexts are found under their identities. -/
structure Rule.Proper (r : Rule) : Prop where
  wellFormed : r.sentence.WellFormed
  keyed : r.facts.pools.Keyed

/-- The instantiation of a rule is right for its facts, no truth waits, and the nodes that are trusted
have links. -/
structure Rule.Upright (engine : Engine) (r : Rule) : Prop extends r.Proper where
  tree : ∃ n, r.tree.Right engine r.facts.pools r.sentence.formula n ∧ n.Calm
  linked : ∀ n, r.tree.root = some n → r.tree.Linked engine.minimalLinks n

theorem Rule.Upright.of_right {engine : Engine} {r : Rule} {n : Node} (hr : r.Proper)
    (hn : r.tree.Right engine r.facts.pools r.sentence.formula n) (hcalm : n.Calm)
    (hlinked : r.tree.Linked engine.minimalLinks n) : r.Upright engine := by
  refine ⟨hr, ⟨n, hn, hcalm⟩, fun n' hn' => ?_⟩
  rwa [← Option.some.inj (hn.root.symm.trans hn')]

theorem Rule.Upright.evaluates {engine : Engine} {r : Rule} (h : r.Upright engine) :
    r.sentence.formula.Evaluates engine.registry r.facts.pools ∅ := by
  obtain ⟨n, hn, -⟩ := h.tree
  rw [← hn.env]
  exact Formula.evaluates_of_found hn.placed hn.found

namespace Cycle

variable {α β : Type} {engine : Engine} {r : Rule} {P Q : Pools} {K : Failure → Prop}

/-- A part of a cycle brings a rule to pools: its facts have them, and its instantiation is right for
them. -/
def Brings (engine : Engine) (x : Routine Cycle α) (r : Rule) (a : α) (Q : Pools) : Prop :=
  ∃ facts tree, Turns x r a { r with facts, tree } ∧ facts.pools = Q ∧
    Rule.Upright engine { r with facts, tree }

/-- A part of a cycle fails with a failure of a kind, after which the facts have some pools unless the
run must stop. -/
def Spoils (K : Failure → Prop) (x : Routine Cycle α) (r : Rule) (Q : Pools) : Prop :=
  ∃ e facts tree, K e ∧ Breaks x r e { r with facts, tree } ∧ (e.stops = false → facts.pools = Q)

/-- A failure that does not stop the run is handed on, with facts that have some pools. Any other one
stops it. -/
def HandsOn (K : Failure → Prop) (x : Routine Cycle (Option Error)) (r : Rule) (Q : Pools) : Prop :=
  (∃ e facts tree, K (.error e) ∧ e.isFatal = false ∧ Turns x r (some e) { r with facts, tree } ∧
    facts.pools = Q) ∨
  ∃ e facts tree, K e ∧ e.stops = true ∧ Breaks x r e { r with facts, tree }

theorem Brings.bind {x : Routine Cycle α} {f : α → Routine Cycle β} {a : α} {b : β}
    (hx : Brings engine x r a P)
    (hf : ∀ facts tree, facts.pools = P → Rule.Upright engine { r with facts, tree } →
      Brings engine (f a) { r with facts, tree } b Q) :
    Brings engine (x >>= f) r b Q := by
  obtain ⟨facts₁, tree₁, h₁, hP, hr₁⟩ := hx
  obtain ⟨facts₂, tree₂, h₂, hQ, hr₂⟩ := hf facts₁ tree₁ hP hr₁
  exact ⟨facts₂, tree₂, h₁.bind h₂, hQ, hr₂⟩

theorem Brings.bind_handsOn {x : Routine Cycle α} {f : α → Routine Cycle (Option Error)} {a : α}
    (hx : Brings engine x r a P)
    (hf : ∀ facts tree, facts.pools = P → Rule.Upright engine { r with facts, tree } →
      HandsOn K (f a) { r with facts, tree } Q) :
    HandsOn K (x >>= f) r Q := by
  obtain ⟨facts₁, tree₁, h₁, hP, hr₁⟩ := hx
  rcases hf facts₁ tree₁ hP hr₁ with ⟨e, facts₂, tree₂, hK, he, h₂, hQ⟩ |
    ⟨e, facts₂, tree₂, hK, he, h₂⟩
  · exact .inl ⟨e, facts₂, tree₂, hK, he, h₁.bind h₂, hQ⟩
  · exact .inr ⟨e, facts₂, tree₂, hK, he, h₁.bind_breaks h₂⟩

theorem Leads.handsOn {x y : Routine Cycle (Option Error)} (h : Leads x r y r)
    (hy : HandsOn K y r Q) : HandsOn K x r Q := by
  rcases hy with ⟨e, facts, tree, hK, he, hy, hQ⟩ | ⟨e, facts, tree, hK, he, hy⟩
  · exact .inl ⟨e, facts, tree, hK, he, h.turns hy, hQ⟩
  · exact .inr ⟨e, facts, tree, hK, he, h.breaks hy⟩

theorem Leads.brings {x y : Routine Cycle α} {a : α} (h : Leads x r y r)
    (hy : Brings engine y r a Q) : Brings engine x r a Q := by
  obtain ⟨facts, tree, hy, hrest⟩ := hy
  exact ⟨facts, tree, h.turns hy, hrest⟩

theorem Leads.spoils {x y : Routine Cycle α} (h : Leads x r y r) (hy : Spoils K y r Q) :
    Spoils K x r Q := by
  obtain ⟨e, facts, tree, hK, hy, hQ⟩ := hy
  exact ⟨e, facts, tree, hK, h.breaks hy, hQ⟩

theorem Spoils.ne_ok {x : Routine Cycle α} {a : α} {c c' : Cycle} (h : Spoils K x c.rule Q) :
    x c ≠ .ok a c' := by
  obtain ⟨e, facts, tree, -, hx, -⟩ := h
  obtain ⟨c₁, h₁, -⟩ := hx c rfl
  rw [h₁]
  exact nofun

theorem Spoils.bind {x : Routine Cycle α} (hx : Spoils K x r Q) (f : α → Routine Cycle β) :
    Spoils K (x >>= f) r Q := by
  obtain ⟨e, facts, tree, hK, hx, hQ⟩ := hx
  exact ⟨e, facts, tree, hK, hx.bind f, hQ⟩

theorem HandsOn.bind {x : Routine Cycle (Option Error)}
    {f : Option Error → Routine Cycle (Option Error)} (hx : HandsOn K x r P)
    (hf : ∀ e facts tree, facts.pools = P → ∃ facts',
      Turns (f (some e)) { r with facts, tree } (some e) { r with facts := facts', tree } ∧
        facts'.pools = Q) : HandsOn K (x >>= f) r Q := by
  rcases hx with ⟨e, facts, tree, hK, he, h, hP⟩ | ⟨e, facts, tree, hK, he, h⟩
  · obtain ⟨facts', h', hQ⟩ := hf e facts tree hP
    exact .inl ⟨e, facts', tree, hK, he, h.bind h', hQ⟩
  · exact .inr ⟨e, facts, tree, hK, he, h.bind f⟩

end Cycle

theorem Tree.Right.beginCycle {engine : Engine} {P : Pools} {f : Formula} {t : Tree} {n : Node}
    (h : t.Right engine P f n) : t.beginCycle.Right engine P f n where
  root := h.root
  place := h.place
  placed := h.placed
  found := h.found
  cached := h.cached.cached_mono fun _ _ ht hm => absurd (ht hm) ExtTreeSet.not_mem_empty
  links := h.links
  owns := h.owns

/-- An instantiation that was edited, and is to be evaluated incrementally. -/
structure Setting.Edited (s : Setting) (f : Formula) (t : Tree) (n : Node) : Prop where
  root : t.root = some n
  place : n.place = (none, ∅)
  placed : f.Every (Formula.Placed s.facts.pools) n
  prepared : f.Prepared s.registry s.facts.pools s.focus n
  carried : f.Every
    (Formula.Carried s.registry s.facts.pools s.focus (s.Trusts t.wasSubstantial.contains)) n
  primed : s.minimalLinks = false → f.Every (Formula.Primed s.focus) n
  calm : n.Calm
  started : t.substantial = ∅
  owns : t.Owns n.indices

namespace Rule

variable {engine : Engine} {r : Rule} {P Q : Pools} {t : Tree} {n : Node} {focus : Focus}
  {concurrent : List Nat} {batch : List Change} {K : Failure → Prop}

/-- After the facts changed, the structure is brought up to date in a new cycle. -/
theorem restructure_edited (hf : (r.setting engine focus concurrent).Follows P)
    (hr : r.sentence.WellFormed) (ht : r.tree = t.beginCycle)
    (h : t.Right engine P r.sentence.formula n) (hn : n.Calm)
    (hl : engine.minimalLinks = false → n.Linked) :
    ∃ tree n', Cycle.Turns (restructure engine focus concurrent) r ⟨⟩ { r with tree } ∧
      (r.setting engine focus concurrent).Edited r.sentence.formula tree n' ∧
      r.sentence.formula.Reworked (r.setting engine focus concurrent) n n' := by
  obtain ⟨tree, n', hturns, hroot, hre, ho, hsh⟩ := restructure_turns focus concurrent hf.before
    hf.deltas hr (ht ▸ h.beginCycle)
  have hcached : r.sentence.formula.Every (Formula.Cached engine.registry P
      ((r.setting engine focus concurrent).Trusts tree.wasSubstantial.contains)) n := by
    refine h.cached.cached_mono fun i _ hi hm => ?_
    have hwas : tree.wasSubstantial.contains i = true := by
      have hi' : (!engine.minimalLinks || tree.wasSubstantial.contains i) = true := hi
      rwa [hm] at hi'
    have hmem : i ∈ r.tree.wasSubstantial := hsh.2 i hwas
    rwa [ht] at hmem
  exact ⟨tree, n', hturns, ⟨hroot, hre.place_eq.trans h.place, hre.placed hf h.placed,
    hre.prepared hf h.placed h.found hn, hre.carried hf h.placed hcached,
    fun hm => hre.primed h.placed (hl hm), hre.calm h.placed hn, hsh.1 (ht ▸ rfl), ho⟩, hre⟩

/-- The truths of an edited instantiation are found, and its links can be generated. -/
theorem findTruth_explicable {evaluate : Node → Eval (Bool × Node)} {stage : Stage} {b : Bool × Node}
    (h : (r.setting engine focus concurrent).Edited r.sentence.formula r.tree n)
    (hy : (evaluate n).Yields b)
    (hb : Evaluated engine.registry r.facts.pools stage none r.sentence.formula n b) :
    ∃ tree n', Cycle.Turns (findTruth evaluate) r ⟨⟩ { r with tree } ∧
      (r.setting engine focus concurrent).Explicable r.facts.pools r.sentence.formula tree n' ∧
      (stage = .commit → n'.Calm) :=
  ⟨_, b.2, findTruth_turns h.root hy,
    Setting.explicable_of_evaluated hb h.place h.placed h.carried h.primed h.started h.owns,
    fun hs => hb.traced.calm hs h.calm⟩

/-! ## Rebuilding -/

variable (engine) in
theorem cycleFull_leads (h : r.Proper) (hd : r.facts.deltas = ∅)
    (hQ : r.facts.pools.after? batch = some Q) (concurrent : Bool) :
    ∃ facts, Cycle.Leads (cycleFull engine batch concurrent) r (rebuild engine concurrent)
        { r with facts } ∧ facts.pools = Q := by
  obtain ⟨facts, hfacts, rfl, -⟩ :=
    FactStore.applyBatch_ok (FactStore.separatedFrom_of_deltas_eq hd) h.keyed hQ
  exact ⟨facts.clearDeltas, (Cycle.turns_onFacts hfacts).leads.trans
    (Cycle.turns_modifyFacts _ _).leads, rfl⟩

variable (engine) in
/-- **A cycle that rebuilds** the instantiation. -/
theorem cycleFull_brings (h : r.Proper) (hd : r.facts.deltas = ∅)
    (hQ : r.facts.pools.after? batch = some Q)
    (he : r.sentence.formula.Evaluates engine.registry Q ∅) (concurrent : Bool) :
    Cycle.Brings engine (cycleFull engine batch concurrent) r ⟨⟩ Q := by
  obtain ⟨facts, hleads, rfl⟩ := cycleFull_leads engine h hd hQ concurrent
  have hP : facts.pools.Keyed := h.keyed.after? hQ
  obtain ⟨tree, n, hturns, hright, hlinked, hn⟩ :=
    rebuild_turns (r := { r with facts }) h.wellFormed hP he concurrent
  exact ⟨facts, tree, hleads.turns hturns, rfl, .of_right ⟨h.wellFormed, hP⟩ hright hn hlinked⟩

theorem cycleFull_spoils (hK : Failure.CrashClosed K) (h : r.Proper)
    (hd : r.facts.deltas = ∅) (hQ : r.facts.pools.after? batch = some Q)
    (ha : r.sentence.formula.Answers engine.registry K Q ∅)
    (hn : ¬r.sentence.formula.Evaluates engine.registry Q ∅) (concurrent : Bool) :
    Cycle.Spoils K (cycleFull engine batch concurrent) r Q := by
  obtain ⟨facts, hleads, rfl⟩ := cycleFull_leads engine h hd hQ concurrent
  obtain ⟨e, tree, he, hb⟩ := rebuild_breaks (r := { r with facts }) hK h.wellFormed
    (h.keyed.after? hQ) ha hn concurrent
  exact ⟨e, facts, tree, he, hleads.breaks hb, fun _ => rfl⟩

/-! ## A whole batch -/

/-- A cycle on a whole batch until its links are generated. Answers the quantifiers that hand out. -/
def judgeBatch (engine : Engine) (batch : List Change) (concurrent : Bool) :
    Routine Cycle (List Nat) := do
  Cycle.onFacts (FactStore.applyBatch batch)
  Cycle.onTree (modify Tree.beginCycle)
  let focus := Focus.patterns (batch.map (·.pattern))
  let r := (← get).rule
  let profitable := if concurrent then concurrentProfitable r.sentence r.facts focus else []
  restructure engine focus profitable
  let stage := if concurrent then Stage.hold else Stage.commit
  findTruth ((r.setting engine focus profitable).reevaluateBatch stage r.sentence.formula)
  return profitable

theorem cycleBatch_eq (engine : Engine) (batch : List Change) (concurrent : Bool) :
    cycleBatch engine batch concurrent = (do
      let profitable ← judgeBatch engine batch concurrent
      generateLinks engine (.patterns (batch.map (·.pattern))) profitable
      if concurrent then
        Cycle.onTree (modify Tree.commit)) := by
  unfold cycleBatch judgeBatch
  simp only [bind_assoc, pure_bind]

/-- A batch is applied, and the structure of the instantiation follows. -/
theorem judgeBatch_leads (h : r.Upright engine) (hd : r.facts.deltas = ∅)
    (hQ : r.facts.pools.after? batch = some Q) (concurrent : Bool) :
    ∃ facts tree n concurrents,
      let r' : Rule := { r with facts, tree }
      let s := r'.setting engine (.patterns (batch.map (·.pattern))) concurrents
      let stage := if concurrent then Stage.hold else Stage.commit
      Cycle.Leads (judgeBatch engine batch concurrent) r
        (do
          findTruth (s.reevaluateBatch stage r.sentence.formula)
          return concurrents) r' ∧
      facts.pools = Q ∧ s.Edited r.sentence.formula tree n := by
  obtain ⟨n, hn, hcalm⟩ := h.tree
  obtain ⟨facts, hfacts, rfl, hsep⟩ :=
    FactStore.applyBatch_ok (FactStore.separatedFrom_of_deltas_eq hd) h.keyed hQ
  let focus := Focus.patterns (batch.map (·.pattern))
  let r₁ : Rule := { r with facts, tree := r.tree.beginCycle }
  let concurrents := if concurrent then concurrentProfitable r₁.sentence r₁.facts focus else []
  have hfollows : (r₁.setting engine focus concurrents).Follows r.facts.pools :=
    ⟨h.keyed, h.keyed.after? hQ, hsep, _, rfl, fun p hp =>
      (Pools.pool_after?_of_untouched hQ hp).symm⟩
  obtain ⟨tree₂, n₂, hrestructure, hedited, -⟩ :=
    restructure_edited hfollows h.wellFormed rfl hn hcalm (h.linked n hn.root).all
  refine ⟨facts, tree₂, n₂, concurrents, ?_, rfl, hedited⟩
  refine (Cycle.turns_onFacts hfacts).leads.trans ((Cycle.turns_modifyTree _ _).leads.trans ?_)
  refine Cycle.leads_get fun c hc => ?_
  rw [hc]
  exact hrestructure.leads

/-- The truths after a batch are found, and the links can be generated. -/
theorem judgeBatch_turns (h : r.Upright engine) (hd : r.facts.deltas = ∅)
    (hQ : r.facts.pools.after? batch = some Q)
    (he : r.sentence.formula.Evaluates engine.registry Q ∅) (concurrent : Bool) :
    ∃ facts tree n concurrents,
      let r' : Rule := { r with facts, tree }
      Cycle.Turns (judgeBatch engine batch concurrent) r concurrents r' ∧ facts.pools = Q ∧
      (r'.setting engine (.patterns (batch.map (·.pattern))) concurrents).Explicable Q
        r.sentence.formula tree n ∧ (concurrent = false → n.Calm) := by
  obtain ⟨facts, tree, n, concurrents, hleads, rfl, hedited⟩ :=
    judgeBatch_leads h hd hQ concurrent
  let r' : Rule := { r with facts, tree }
  let stage := if concurrent then Stage.hold else Stage.commit
  let s := r'.setting engine (.patterns (batch.map (·.pattern))) concurrents
  have henv : n.cell.env = ∅ := congrArg Prod.snd hedited.place
  obtain ⟨b, hy, hb⟩ : ∃ b, (s.reevaluateBatch stage r.sentence.formula n).Yields b ∧
      Evaluated engine.registry facts.pools stage none r.sentence.formula n b :=
    Setting.reevaluateBatch_yields (s := s) (h.keyed.after? hQ) hedited.placed hedited.prepared
      hedited.calm (henv ▸ he)
  obtain ⟨tree₃, n₃, htruth, hexpl, hcalm⟩ := findTruth_explicable (r := r') hedited hy hb
  exact ⟨facts, tree₃, n₃, concurrents, hleads.turns (htruth.bind (Cycle.turns_pure _ _)), rfl, hexpl,
    fun hc => hcalm (if_neg (by rw [hc]; exact Bool.false_ne_true))⟩

theorem judgeBatch_spoils (hK : Failure.CrashClosed K) (h : r.Upright engine)
    (hd : r.facts.deltas = ∅) (hQ : r.facts.pools.after? batch = some Q)
    (ha : r.sentence.formula.Answers engine.registry K Q ∅)
    (hn : ¬r.sentence.formula.Evaluates engine.registry Q ∅) (concurrent : Bool) :
    Cycle.Spoils K (judgeBatch engine batch concurrent) r Q := by
  obtain ⟨facts, tree, n, concurrents, hleads, rfl, hedited⟩ :=
    judgeBatch_leads h hd hQ concurrent
  let r' : Rule := { r with facts, tree }
  have henv : n.cell.env = ∅ := congrArg Prod.snd hedited.place
  have hfails : ((r'.setting engine (.patterns (batch.map (·.pattern))) concurrents).reevaluateBatch
      (if concurrent then Stage.hold else Stage.commit) r.sentence.formula n).Fails K :=
    (Setting.reevaluateBatch_decided hK (h.keyed.after? hQ) hedited.placed hedited.prepared
      hedited.calm (henv ▸ ha)).fails (henv ▸ hn)
  obtain ⟨e, he, hb⟩ := findTruth_breaks (r := r') hedited.root hfails
  exact ⟨e, facts, tree, he, hleads.breaks (hb.bind _), fun _ => rfl⟩

/-- **A cycle on a whole batch**, with truths committed at once or at the end. -/
theorem cycleBatch_brings (h : r.Upright engine) (hd : r.facts.deltas = ∅)
    (hQ : r.facts.pools.after? batch = some Q)
    (he : r.sentence.formula.Evaluates engine.registry Q ∅) (concurrent : Bool) :
    Cycle.Brings engine (cycleBatch engine batch concurrent) r ⟨⟩ Q := by
  obtain ⟨facts, tree, n, concurrents, hjudge, rfl, hexpl, hcalm⟩ :=
    judgeBatch_turns h hd hQ he concurrent
  obtain ⟨tree', n', hlinks, hright, hlinked, hu⟩ := generateLinks_turns _ concurrents
    (r := { r with facts, tree }) hexpl
  have hproper : ∀ tree, Rule.Proper { r with facts, tree } :=
    fun _ => ⟨h.wellFormed, h.keyed.after? hQ⟩
  rw [cycleBatch_eq]
  cases concurrent with
  | false =>
    exact ⟨facts, tree', hjudge.bind (hlinks.bind (Cycle.turns_pure _ _)), rfl,
      .of_right (hproper _) hright (Node.calm_of_unlinked hu.symm (hcalm rfl)) hlinked⟩
  | true =>
    exact ⟨facts, tree'.commit, hjudge.bind (hlinks.bind (Cycle.turns_modifyTree _ _)), rfl,
      .of_right (hproper _) hright.commit.1 hright.commit.2 hlinked.commit⟩

theorem cycleBatch_spoils (hK : Failure.CrashClosed K) (h : r.Upright engine)
    (hd : r.facts.deltas = ∅) (hQ : r.facts.pools.after? batch = some Q)
    (ha : r.sentence.formula.Answers engine.registry K Q ∅)
    (hn : ¬r.sentence.formula.Evaluates engine.registry Q ∅) (concurrent : Bool) :
    Cycle.Spoils K (cycleBatch engine batch concurrent) r Q :=
  cycleBatch_eq engine batch concurrent ▸ (judgeBatch_spoils hK h hd hQ ha hn concurrent).bind _

/-! ## One addition or deletion -/

theorem afterOne_recorded {change : Change} (hk : change.kind ≠ .update) (hd : r.facts.deltas = ∅)
    {facts : FactStore} (hf : facts = r.facts.recorded change) (tree : Tree) :
    (Rule.setting { r with facts, tree } engine (.patterns [change.pattern])
      concurrent).AfterOne change := by
  have hnone : ∀ p, r.facts.delta p = {} := fun p => by
    unfold FactStore.delta
    rw [hd]
    exact ExtTreeMap.getD_empty
  have hdelta : ∀ p, facts.delta p = if change.pattern = p then
      ({} : Delta).record change ((r.facts.get? p change.id).getD change.context) else {} := by
    intro p
    rw [hf, FactStore.delta_recorded, hnone]
  have hself := (hdelta change.pattern).trans (if_pos rfl)
  refine ⟨rfl, fun p hp => ?_, fun ha id => ?_, fun hdel => ?_, hk⟩
  · exact (hdelta p).trans (if_neg hp.symm)
  · change (facts.delta change.pattern).drops id = false
    rw [hself]
    unfold Delta.record Delta.addition Delta.drops
    simp [ha]
  · change Setting.newContexts (facts.delta change.pattern) = []
    rw [hself]
    unfold Delta.record Delta.deletion Setting.newContexts
    simp [hdel, Map.values_eq_map_toList]

/-- A step on one change until its links are generated. -/
def judgeChange (engine : Engine) (change : Change) : Routine Cycle Unit := do
  Cycle.onFacts (modify FactStore.clearDeltas)
  Cycle.onFacts (FactStore.applyBatch [change])
  Cycle.onTree (modify Tree.beginCycle)
  let focus := Focus.patterns [change.pattern]
  restructure engine focus []
  let r := (← get).rule
  findTruth ((r.setting engine focus []).reevaluateChange change r.sentence.formula)

theorem stepChange_eq (engine : Engine) (change : Change) :
    stepChange engine change = (do
      judgeChange engine change
      generateLinks engine (.patterns [change.pattern]) []) := by
  unfold stepChange judgeChange
  simp only [bind_assoc]

/-- One change is applied, and the structure of the instantiation follows. -/
theorem judgeChange_leads {change : Change} (h : r.Upright engine) (hk : change.kind ≠ .update)
    (hv : change.isValid r.facts.pools = true) :
    ∃ facts tree n,
      let r' : Rule := { r with facts, tree }
      let s := r'.setting engine (.patterns [change.pattern]) []
      Cycle.Leads (judgeChange engine change) r
        (findTruth (s.reevaluateChange change r.sentence.formula)) r' ∧
      facts.pools = r.facts.pools.step change ∧ s.Edited r.sentence.formula tree n ∧
      r.sentence.formula.Every (Formula.Single change) n := by
  obtain ⟨n, hn, hcalm⟩ := h.tree
  let facts := r.facts.clearDeltas.recorded change
  let r₁ : Rule := { r with facts, tree := r.tree.beginCycle }
  let focus := Focus.patterns [change.pattern]
  have hfacts : FactStore.applyBatch [change] r.facts.clearDeltas = .ok () facts := by
    unfold FactStore.applyBatch
    rw [Routine.bind_ok (FactStore.applyRecorded_ok (s := r.facts.clearDeltas) hv)]
    rfl
  have hQ : r.facts.pools.after? [change] = some (r.facts.pools.step change) :=
    Pools.after?_cons_eq_some.mpr ⟨hv, rfl⟩
  have hsep : facts.SeparatedFrom r.facts.pools :=
    (FactStore.separatedFrom_of_deltas_eq (s := r.facts.clearDeltas) rfl).step h.keyed hv
  have hfollows : (r₁.setting engine focus []).Follows r.facts.pools :=
    ⟨h.keyed, h.keyed.step change, hsep, _, rfl, fun p hp =>
      (Pools.pool_after?_of_untouched hQ hp).symm⟩
  have hone : (r₁.setting engine focus []).AfterOne change :=
    afterOne_recorded (r := { r with facts := r.facts.clearDeltas }) hk rfl rfl _
  obtain ⟨tree₂, n₂, hrestructure, hedited, hre⟩ :=
    restructure_edited hfollows h.wellFormed rfl hn hcalm (h.linked n hn.root).all
  refine ⟨facts, tree₂, n₂, ?_, rfl, hedited, hre.single hone hn.placed⟩
  refine (Cycle.turns_modifyFacts _ _).leads.trans ((Cycle.turns_onFacts hfacts).leads.trans ?_)
  refine (Cycle.turns_modifyTree _ _).leads.trans (hrestructure.leads.trans ?_)
  refine Cycle.leads_get fun c hc => ?_
  rw [hc]
  exact Cycle.Leads.refl _ _

/-- The truths after one addition or deletion are found, and the links can be generated. -/
theorem judgeChange_turns {change : Change} (h : r.Upright engine) (hk : change.kind ≠ .update)
    (hv : change.isValid r.facts.pools = true)
    (he : r.sentence.formula.Evaluates engine.registry (r.facts.pools.step change) ∅) :
    ∃ facts tree n,
      let r' : Rule := { r with facts, tree }
      Cycle.Turns (judgeChange engine change) r ⟨⟩ r' ∧ facts.pools = r.facts.pools.step change ∧
      (r'.setting engine (.patterns [change.pattern]) []).Explicable facts.pools
        r.sentence.formula tree n ∧ n.Calm := by
  obtain ⟨facts, tree, n, hleads, hP, hedited, hsingle⟩ := judgeChange_leads h hk hv
  let r' : Rule := { r with facts, tree }
  let s := r'.setting engine (.patterns [change.pattern]) []
  have hkeyed : facts.pools.Keyed := hP ▸ h.keyed.step change
  have henv : n.cell.env = ∅ := congrArg Prod.snd hedited.place
  rw [← hP] at he
  obtain ⟨b, hy, hb⟩ : ∃ b, (s.reevaluateChange change r.sentence.formula n).Yields b ∧
      Evaluated engine.registry facts.pools .commit none r.sentence.formula n b :=
    Setting.reevaluateChange_yields (s := s) hkeyed rfl hk h.wellFormed.patterns hedited.placed
      hsingle hedited.prepared hedited.calm (henv ▸ he)
  obtain ⟨tree₃, n₃, htruth, hexpl, hcalm⟩ := findTruth_explicable (r := r') hedited hy hb
  exact ⟨facts, tree₃, n₃, hleads.turns htruth, hP, hexpl, hcalm rfl⟩

theorem judgeChange_spoils (hK : Failure.CrashClosed K) {change : Change}
    (h : r.Upright engine) (hk : change.kind ≠ .update)
    (hv : change.isValid r.facts.pools = true)
    (ha : r.sentence.formula.Answers engine.registry K (r.facts.pools.step change) ∅)
    (hn : ¬r.sentence.formula.Evaluates engine.registry (r.facts.pools.step change) ∅) :
    Cycle.Spoils K (judgeChange engine change) r (r.facts.pools.step change) := by
  obtain ⟨facts, tree, n, hleads, hP, hedited, hsingle⟩ := judgeChange_leads h hk hv
  let r' : Rule := { r with facts, tree }
  have hkeyed : facts.pools.Keyed := hP ▸ h.keyed.step change
  have henv : n.cell.env = ∅ := congrArg Prod.snd hedited.place
  rw [← hP] at ha hn
  have hfails : ((r'.setting engine (.patterns [change.pattern]) []).reevaluateChange change
      r.sentence.formula n).Fails K :=
    (Setting.reevaluateChange_decided hK hkeyed rfl hk h.wellFormed.patterns hedited.placed hsingle
      hedited.prepared hedited.calm (henv ▸ ha)).fails (henv ▸ hn)
  obtain ⟨e, he, hb⟩ := findTruth_breaks (r := r') hedited.root hfails
  exact ⟨e, facts, tree, he, hleads.breaks hb, fun _ => hP⟩

/-- **A step on one addition or deletion.** -/
theorem stepChange_brings {change : Change} (h : r.Upright engine) (hk : change.kind ≠ .update)
    (hv : change.isValid r.facts.pools = true)
    (he : r.sentence.formula.Evaluates engine.registry (r.facts.pools.step change) ∅) :
    Cycle.Brings engine (stepChange engine change) r ⟨⟩ (r.facts.pools.step change) := by
  obtain ⟨facts, tree, n, hjudge, hP, hexpl, hcalm⟩ := judgeChange_turns h hk hv he
  obtain ⟨tree', n', hlinks, hright, hlinked, hu⟩ := generateLinks_turns _ []
    (r := { r with facts, tree }) hexpl
  rw [stepChange_eq]
  exact ⟨facts, tree', hjudge.bind hlinks, hP, .of_right ⟨h.wellFormed, hP ▸ h.keyed.step change⟩
    hright (Node.calm_of_unlinked hu.symm hcalm) hlinked⟩

theorem stepChange_spoils (hK : Failure.CrashClosed K) {change : Change}
    (h : r.Upright engine) (hk : change.kind ≠ .update)
    (hv : change.isValid r.facts.pools = true)
    (ha : r.sentence.formula.Answers engine.registry K (r.facts.pools.step change) ∅)
    (hn : ¬r.sentence.formula.Evaluates engine.registry (r.facts.pools.step change) ∅) :
    Cycle.Spoils K (stepChange engine change) r (r.facts.pools.step change) :=
  stepChange_eq engine change ▸ (judgeChange_spoils hK h hk hv ha hn).bind _

/-! ## Changes one at a time -/

theorem stepsOf_turns {change : Change} (h : r.Proper)
    (hv : change.isValid r.facts.pools = true) :
    ∃ steps, Cycle.Turns (stepsOf change) r steps r ∧ (∀ c ∈ steps, c.kind ≠ .update) ∧
      r.facts.pools.after? steps = some (r.facts.pools.step change) ∧
      r.facts.pools.trail steps = r.facts.pools.trail [change] := by
  by_cases hk : change.kind = .update
  · obtain ⟨old, hold⟩ : ∃ old, r.facts.pools.live? change.pattern change.id = some old := by
      rw [Pools.isValid_iff, hk] at hv
      exact Option.isSome_iff_exists.mp (hv.mpr nofun)
    have hid : old.id = change.context.id := h.keyed _ _ _ hold
    let steps : List Change :=
      [⟨.deletion, change.pattern, old⟩, ⟨.addition, change.pattern, change.context⟩]
    have hself : change = ⟨.update, change.pattern, change.context⟩ := by
      rw [← hk]
    have hstep := (congrArg r.facts.pools.step hself).trans
      (Pools.step_update r.facts.pools change.pattern hid)
    refine ⟨steps, ?_, ?_, ?_, ?_⟩
    · unfold stepsOf
      rw [hk]
      refine Cycle.turns_get fun c hc => ?_
      have hget : c.rule.facts.get? change.pattern change.id = some old := hc ▸ hold
      simp only [hget]
      exact Cycle.turns_pure _ _
    · intro c hc
      rcases List.mem_cons.mp hc with rfl | hc
      · nofun
      · rw [List.mem_singleton.mp hc]
        nofun
    · have hdel : Change.isValid ⟨.deletion, change.pattern, old⟩ r.facts.pools = true := by
        rw [Pools.isValid_iff]
        change (r.facts.pools.live? change.pattern old.id).isSome = true ↔ _
        rw [hid, show r.facts.pools.live? change.pattern change.context.id = some old from hold]
        exact ⟨nofun, fun _ => rfl⟩
      have hadd : Change.isValid ⟨.addition, change.pattern, change.context⟩
          (r.facts.pools.step ⟨.deletion, change.pattern, old⟩) = true := by
        rw [Pools.isValid_iff, Pools.live?_step, if_pos ⟨rfl, hid⟩]
        exact ⟨nofun, fun hne => absurd rfl hne⟩
      rw [hstep]
      exact Pools.after?_cons_eq_some.mpr ⟨hdel, Pools.after?_cons_eq_some.mpr ⟨hadd, rfl⟩⟩
    · rw [Pools.trail_singleton, if_pos hk, Pools.step_deletion_congr _ _ hid.symm, hstep]
      rfl
  · refine ⟨[change], ?_, ?_, Pools.after?_cons_eq_some.mpr ⟨hv, rfl⟩, rfl⟩
    · unfold stepsOf
      cases hkind : change.kind with
      | update => exact absurd hkind hk
      | addition | deletion => exact Cycle.turns_pure _ _
    · intro c hc
      rwa [List.mem_singleton.mp hc]

section Failed

variable {e : Error}

variable (engine) in
theorem takeSteps_turns_failed (steps : List Change) : ∀ {r : Rule} {Q : Pools},
    r.facts.pools.after? steps = some Q →
    ∃ facts, Cycle.Turns (takeSteps engine (some e) steps) r (some e) { r with facts } ∧
      facts.pools = Q := by
  induction steps with
  | nil =>
    intro r Q hQ
    cases hQ
    exact ⟨r.facts, Cycle.turns_pure _ _, rfl⟩
  | cons change rest ih =>
    intro r Q hQ
    rw [Pools.after?_cons_eq_some] at hQ
    let facts : FactStore := { r.facts with pools := r.facts.pools.step change }
    obtain ⟨facts', hrest, hP⟩ := ih (r := { r with facts }) hQ.2
    have hstep : Cycle.Turns (takeStep engine (some e) change) r (some e) { r with facts } :=
      (Cycle.turns_onFacts (FactStore.apply_ok hQ.1)).bind (Cycle.turns_pure _ _)
    exact ⟨facts', hstep.bind hrest, hP⟩

theorem takeChanges_turns_failed (batch : List Change) : ∀ {r : Rule} {Q : Pools}, r.Proper →
    r.facts.pools.after? batch = some Q →
    ∃ facts, Cycle.Turns (takeChanges engine (some e) batch) r (some e) { r with facts } ∧
      facts.pools = Q := by
  induction batch with
  | nil =>
    intro r Q _ hQ
    cases hQ
    exact ⟨r.facts, Cycle.turns_pure _ _, rfl⟩
  | cons change rest ih =>
    intro r Q h hQ
    rw [Pools.after?_cons_eq_some] at hQ
    obtain ⟨steps, hsteps, -, hafter, -⟩ := stepsOf_turns h hQ.1
    obtain ⟨facts, hturns, hP⟩ := takeSteps_turns_failed engine (e := e) steps hafter
    obtain ⟨facts', hrest, hQ'⟩ := ih (r := { r with facts })
      ⟨h.wellFormed, hP ▸ h.keyed.step change⟩ (hP ▸ hQ.2)
    exact ⟨facts', hsteps.bind (hturns.bind hrest), hQ'⟩

end Failed

theorem takeStep_brings {change : Change} (h : r.Upright engine) (hk : change.kind ≠ .update)
    (hv : change.isValid r.facts.pools = true)
    (he : r.sentence.formula.Evaluates engine.registry (r.facts.pools.step change) ∅) :
    Cycle.Brings engine (takeStep engine none change) r none (r.facts.pools.step change) := by
  obtain ⟨facts, tree, hturns, hrest⟩ := stepChange_brings h hk hv he
  exact ⟨facts, tree, hturns.attempt.bind (Cycle.turns_pure _ _), hrest⟩

theorem takeSteps_brings (steps : List Change) : ∀ {r : Rule} {Q : Pools}, r.Upright engine →
    (∀ c ∈ steps, c.kind ≠ .update) → r.facts.pools.after? steps = some Q →
    (∀ P ∈ r.facts.pools.trail steps, r.sentence.formula.Evaluates engine.registry P ∅) →
    Cycle.Brings engine (takeSteps engine none steps) r none Q := by
  induction steps with
  | nil =>
    intro r Q h _ hQ _
    cases hQ
    exact ⟨r.facts, r.tree, Cycle.turns_pure _ _, rfl, h⟩
  | cons change rest ih =>
    intro r Q h hk hQ he
    rw [Pools.after?_cons_eq_some] at hQ
    rw [List.forall_mem_cons] at hk
    rw [Pools.trail_cons_of_ne hk.1, List.forall_mem_cons] at he
    refine (takeStep_brings h hk.1 hQ.1 he.1).bind fun facts tree hP hr => ?_
    exact ih hr hk.2 (hP ▸ hQ.2) (hP ▸ he.2)

theorem takeChanges_brings (batch : List Change) : ∀ {r : Rule} {Q : Pools}, r.Upright engine →
    r.facts.pools.after? batch = some Q →
    (∀ P ∈ r.facts.pools.trail batch, r.sentence.formula.Evaluates engine.registry P ∅) →
    Cycle.Brings engine (takeChanges engine none batch) r none Q := by
  induction batch with
  | nil =>
    intro r Q h hQ _
    cases hQ
    exact ⟨r.facts, r.tree, Cycle.turns_pure _ _, rfl, h⟩
  | cons change rest ih =>
    intro r Q h hQ he
    rw [Pools.after?_cons_eq_some] at hQ
    obtain ⟨steps, hsteps, hk, hafter, htrail⟩ := stepsOf_turns h.toProper hQ.1
    rw [Pools.trail_cons, ← htrail, List.forall_mem_append] at he
    refine hsteps.leads.brings ((takeSteps_brings steps h hk hafter he.1).bind ?_)
    exact fun facts tree hP hr => ih hr (hP ▸ hQ.2) (hP ▸ he.2)

theorem Upright.evaluates_of_trail (h : r.Upright engine) (hQ : r.facts.pools.after? batch = some Q)
    (he : ∀ P ∈ r.facts.pools.trail batch, r.sentence.formula.Evaluates engine.registry P ∅) :
    r.sentence.formula.Evaluates engine.registry Q ∅ := by
  obtain ⟨facts, tree, -, rfl, hu⟩ := takeChanges_brings batch h hQ he
  exact hu.evaluates

/-- **A cycle on one change after the other.** -/
theorem cycleChanges_brings (h : r.Upright engine) (hQ : r.facts.pools.after? batch = some Q)
    (he : ∀ P ∈ r.facts.pools.trail batch, r.sentence.formula.Evaluates engine.registry P ∅) :
    Cycle.Brings engine (cycleChanges engine batch) r ⟨⟩ Q := by
  obtain ⟨facts, tree, hturns, hrest⟩ := takeChanges_brings batch h hQ he
  exact ⟨facts, tree, hturns.bind (Cycle.turns_pure _ _), hrest⟩

section Spoils

variable (hK : Failure.CrashClosed K)

include hK

theorem takeStep_handsOn {change : Change} (h : r.Upright engine) (hk : change.kind ≠ .update)
    (hv : change.isValid r.facts.pools = true)
    (ha : r.sentence.formula.Answers engine.registry K (r.facts.pools.step change) ∅)
    (hn : ¬r.sentence.formula.Evaluates engine.registry (r.facts.pools.step change) ∅) :
    Cycle.HandsOn K (takeStep engine none change) r (r.facts.pools.step change) := by
  obtain ⟨e, facts, tree, hKe, hb, hP⟩ := stepChange_spoils hK h hk hv ha hn
  cases e with
  | crash c =>
    exact .inr ⟨.crash c, facts, tree, hKe, rfl, hb.attempt.bind_breaks (Cycle.breaks_throw _ _)⟩
  | error e =>
    cases hf : e.isFatal with
    | true =>
      refine .inr ⟨.error e, facts, tree, hKe, hf, hb.attempt.bind_breaks ?_⟩
      simp only [hf, if_true]
      exact Cycle.breaks_throw _ _
    | false =>
      refine .inl ⟨e, facts, tree, hKe, hf, hb.attempt.bind ?_, hP hf⟩
      simp only [hf, Bool.false_eq_true, if_false]
      exact Cycle.turns_pure _ _

theorem takeSteps_handsOn (steps : List Change) : ∀ {r : Rule} {Q : Pools}, r.Upright engine →
    (∀ c ∈ steps, c.kind ≠ .update) → r.facts.pools.after? steps = some Q →
    (∀ P, r.sentence.formula.Answers engine.registry K P ∅) →
    (¬∀ P ∈ r.facts.pools.trail steps, r.sentence.formula.Evaluates engine.registry P ∅) →
    Cycle.HandsOn K (takeSteps engine none steps) r Q := by
  induction steps with
  | nil => exact fun _ _ _ _ hn => absurd nofun hn
  | cons change rest ih =>
    intro r Q h hk hQ ha hn
    rw [Pools.after?_cons_eq_some] at hQ
    rw [List.forall_mem_cons] at hk
    rw [Pools.trail_cons_of_ne hk.1, List.forall_mem_cons] at hn
    -- The first step whose pools the formula does not evaluate over is the one that fails.
    by_cases he : r.sentence.formula.Evaluates engine.registry (r.facts.pools.step change) ∅
    · refine (takeStep_brings h hk.1 hQ.1 he).bind_handsOn fun facts tree hP hr => ?_
      exact ih hr hk.2 (hP ▸ hQ.2) ha (hP ▸ fun hrest => hn ⟨he, hrest⟩)
    · exact (takeStep_handsOn hK h hk.1 hQ.1 (ha _) he).bind fun e facts tree hP =>
        takeSteps_turns_failed engine rest (hP ▸ hQ.2)

theorem takeChanges_handsOn (batch : List Change) : ∀ {r : Rule} {Q : Pools}, r.Upright engine →
    r.facts.pools.after? batch = some Q →
    (∀ P, r.sentence.formula.Answers engine.registry K P ∅) →
    (¬∀ P ∈ r.facts.pools.trail batch, r.sentence.formula.Evaluates engine.registry P ∅) →
    Cycle.HandsOn K (takeChanges engine none batch) r Q := by
  induction batch with
  | nil => exact fun _ _ _ hn => absurd nofun hn
  | cons change rest ih =>
    intro r Q h hQ ha hn
    rw [Pools.after?_cons_eq_some] at hQ
    obtain ⟨steps, hsteps, hk, hafter, htrail⟩ := stepsOf_turns h.toProper hQ.1
    rw [Pools.trail_cons, ← htrail, List.forall_mem_append] at hn
    refine hsteps.leads.handsOn ?_
    by_cases he : ∀ P ∈ r.facts.pools.trail steps, r.sentence.formula.Evaluates engine.registry P ∅
    · refine (takeSteps_brings steps h hk hafter he).bind_handsOn fun facts tree hP hr => ?_
      exact ih hr (hP ▸ hQ.2) ha (hP ▸ fun hrest => hn ⟨he, hrest⟩)
    · exact (takeSteps_handsOn hK steps h hk hafter ha he).bind fun e facts tree hP =>
        takeChanges_turns_failed rest ⟨h.wellFormed, hP ▸ h.keyed.step change⟩ (hP ▸ hQ.2)

theorem cycleChanges_spoils (h : r.Upright engine) (hQ : r.facts.pools.after? batch = some Q)
    (ha : ∀ P, r.sentence.formula.Answers engine.registry K P ∅)
    (hn : ¬∀ P ∈ r.facts.pools.trail batch, r.sentence.formula.Evaluates engine.registry P ∅) :
    Cycle.Spoils K (cycleChanges engine batch) r Q := by
  rcases takeChanges_handsOn hK batch h hQ ha hn with ⟨e, facts, tree, hKe, -, hturns, hP⟩ |
    ⟨e, facts, tree, hKe, he, hb⟩
  · exact ⟨.error e, facts, tree, hKe, hturns.bind_breaks (Cycle.breaks_throw _ _), fun _ => hP⟩
  · exact ⟨e, facts, tree, hKe, hb.bind _, fun h => absurd (h.symm.trans he) Bool.false_ne_true⟩

end Spoils

end Rule

end RuleMonitor
