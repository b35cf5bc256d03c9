import RuleMonitor.Proofs.Evaluation.FanningOut
import RuleMonitor.Proofs.Rules.Explaining

/-!
# Cycles that match

Two cycles match on a rule if both leave the same rule, and end alike: both succeed with the same value,
or both fail with the same failure. A strategy that hands branches out matches the one that does the
same in sequence, whatever the batch, as long as no predicate crashes.

* `Cycle.Match`: parts of cycles that match.
* **`Rule.cycleFull_match`**, **`Rule.cycleBatch_match`**: rebuilding, and a whole batch at once.
* **`Rule.cycle_match`**: cycles by strategies that are twins.
-/

namespace RuleMonitor

open Std (ExtTreeMap)

/-- One strategy does in sequence what the other one hands out. -/
inductive Strategy.Twins : (sequential concurrent : Strategy) → Prop
  | full : Twins .full .fullConcurrent
  | batch : Twins .batch .batchConcurrent

theorem Strategy.Twins.ne_change {sequential concurrent : Strategy}
    (h : sequential.Twins concurrent) : sequential ≠ .change := by
  cases h <;> nofun

namespace Cycle

variable {α β : Type} {x y : Routine Cycle α} {r : Rule}

/-- Two parts of cycles match on a rule: they leave the same rule, with the same value or the same
failure. -/
inductive Match (x y : Routine Cycle α) (r : Rule) : Prop
  | turns (a : α) (r' : Rule) (left : Turns x r a r') (right : Turns y r a r')
  | breaks (e : Failure) (r' : Rule) (left : Breaks x r e r') (right : Breaks y r e r')

theorem Match.bind {f g : α → Routine Cycle β} (h : Match x y r)
    (hf : ∀ a r', Turns x r a r' → Match (f a) (g a) r') : Match (x >>= f) (y >>= g) r := by
  cases h with
  | turns a r' hx hy =>
    cases hf a r' hx with
    | turns b r'' hx' hy' => exact .turns b r'' (hx.bind hx') (hy.bind hy')
    | breaks e r'' hx' hy' => exact .breaks e r'' (hx.bind_breaks hx') (hy.bind_breaks hy')
  | breaks e r' hx hy => exact .breaks e r' (hx.bind f) (hy.bind g)

theorem Match.symm (h : Match x y r) : Match y x r := by
  cases h with
  | turns a r' hx hy => exact .turns a r' hy hx
  | breaks e r' hx hy => exact .breaks e r' hy hx

theorem Match.left (h : Match x y r) : Match x x r := by
  cases h with
  | turns a r' hx _ => exact .turns a r' hx hx
  | breaks e r' hx _ => exact .breaks e r' hx hx

theorem Match.right (h : Match x y r) : Match y y r := by
  cases h with
  | turns a r' _ hy => exact .turns a r' hy hy
  | breaks e r' _ hy => exact .breaks e r' hy hy

theorem Breaks.not_turns {e : Failure} {r₁ r₂ : Rule} {a : α} (h : Breaks x r e r₁) :
    ¬Turns x r a r₂ := by
  intro ht
  obtain ⟨c₁, h₁, -⟩ := h { rule := r } rfl
  obtain ⟨c₂, h₂, -⟩ := ht { rule := r } rfl
  exact nomatch h₁.symm.trans h₂

theorem match_get {f g : Cycle → Routine Cycle α} (hf : ∀ c : Cycle, c.rule = r → f c = x)
    (hg : ∀ c : Cycle, c.rule = r → g c = y) (h : Match x y r) :
    Match (get >>= f) (get >>= g) r := by
  cases h with
  | turns a r' hx hy =>
    exact .turns a r' (turns_get fun c hc => hf c hc ▸ hx) (turns_get fun c hc => hg c hc ▸ hy)
  | breaks e r' hx hy =>
    exact .breaks e r' (breaks_get fun c hc => hf c hc ▸ hx) (breaks_get fun c hc => hg c hc ▸ hy)

theorem match_pure (a : α) (r : Rule) : Match (pure a) (pure a) r :=
  .turns a r (turns_pure a r) (turns_pure a r)

theorem match_throw (e : Failure) (r : Rule) :
    Match (throw e : Routine Cycle α) (throw e) r :=
  .breaks e r (breaks_throw e r) (breaks_throw e r)

theorem match_ofExcept (x : Except Failure α) (r : Rule) :
    Match (Routine.ofExcept x) (Routine.ofExcept x) r := by
  cases x with
  | ok a => exact match_pure a r
  | error e => exact match_throw e r

theorem match_modifyRule (f : Rule → Rule) (r : Rule) : Match (modifyRule f) (modifyRule f) r :=
  .turns _ _ (turns_modifyRule f r) (turns_modifyRule f r)

theorem match_enter (phase : Phase) (r : Rule) : Match (enter phase) (enter phase) r :=
  .turns _ _ (turns_enter phase r) (turns_enter phase r)

theorem breaks_onFacts {x : Routine FactStore α} {e : Failure} {facts : FactStore}
    (hx : x r.facts = .error e facts) : Breaks (onFacts x) r e { r with facts } := fun c hc => by
  subst hc
  exact ⟨_, Routine.onPart_error hx, rfl⟩

theorem breaks_onTree {x : Routine Tree α} {e : Failure} {tree : Tree}
    (hx : x r.tree = .error e tree) : Breaks (onTree x) r e { r with tree } := fun c hc => by
  subst hc
  exact ⟨_, Routine.onPart_error hx, rfl⟩

theorem match_onFacts (x : Routine FactStore α) (r : Rule) : Match (onFacts x) (onFacts x) r := by
  cases h : x r.facts with
  | ok a facts => exact .turns _ _ (turns_onFacts h) (turns_onFacts h)
  | error e facts => exact .breaks _ _ (breaks_onFacts h) (breaks_onFacts h)

theorem match_onTree (x : Routine Tree α) (r : Rule) : Match (onTree x) (onTree x) r := by
  cases h : x r.tree with
  | ok a tree => exact .turns _ _ (turns_onTree h) (turns_onTree h)
  | error e tree => exact .breaks _ _ (breaks_onTree h) (breaks_onTree h)

theorem match_evaluate {x y : Eval α} (h : Eval.Alike Eq x y) (r : Rule) :
    Match (evaluate x) (evaluate y) r := by
  cases h with
  | yields hx hy hab => exact .turns _ _ (turns_evaluate hx r) (turns_evaluate (hab ▸ hy) r)
  | fails hx hy =>
    obtain ⟨_, rfl, hx⟩ := breaks_evaluate hx r
    obtain ⟨_, rfl, hy⟩ := breaks_evaluate hy r
    exact .breaks _ _ hx hy

theorem Match.attempt (h : Match x y r) : Match (Routine.attempt x) (Routine.attempt y) r := by
  cases h with
  | turns a r' hx hy => exact .turns _ _ hx.attempt hy.attempt
  | breaks e r' hx hy => exact .turns _ _ hx.attempt hy.attempt

end Cycle

namespace Rule

variable {engine : Engine} {r : Rule} {batch : List Change}

theorem generateLinks_match (focus : Focus) (l l' : List Nat) (r : Rule) :
    Cycle.Match (generateLinks engine focus l) (generateLinks engine focus l') r := by
  refine (Cycle.match_enter .links r).bind fun _ r' _ => ?_
  refine Cycle.match_get (fun c hc => by rw [hc]) (fun c hc => by rw [hc]) ?_
  have h := Setting.alike_explainTree (r'.setting engine focus l) l' .commit r'.tree
  rw [r'.tree.mapRoot_settle_commit] at h
  refine Cycle.Match.bind (Cycle.match_evaluate (h.imp fun a b hab => ?_) r') fun tree r'' _ =>
    Cycle.match_modifyRule _ _
  rw [← hab, a.mapRoot_settle_commit]

theorem findTruth_match {evaluate evaluate' : Node → Eval (Bool × Node)}
    (h : ∀ n, Eval.Alike Eq (evaluate n) (evaluate' n)) (r : Rule) :
    Cycle.Match (findTruth evaluate) (findTruth evaluate') r := by
  refine Cycle.match_get (fun c hc => by rw [hc]) (fun c hc => by rw [hc]) ?_
  refine (Cycle.match_ofExcept r.tree.getRoot r).bind fun root r' _ => ?_
  refine (Cycle.match_enter .truth r').bind fun _ r' _ => ?_
  exact (Cycle.match_evaluate (h root) r').bind fun _ _ _ => Cycle.match_modifyRule _ _

/-- **Rebuilding** matches rebuilding, whether or not branches are handed out. -/
theorem rebuild_match (ho : engine.registry.Orderly) (concurrent concurrent' : Bool) (r : Rule) :
    Cycle.Match (rebuild engine concurrent) (rebuild engine concurrent') r := by
  refine (Cycle.match_modifyRule _ r).bind fun _ r₁ _ => ?_
  refine Cycle.match_get (fun c hc => by rw [hc]) (fun c hc => by rw [hc]) ?_
  let topmost (concurrent : Bool) := if concurrent then concurrentTopmost r₁.sentence else []
  let s := r₁.setting engine .everything (topmost concurrent)
  refine (Cycle.match_enter .modify r₁).bind fun _ r₂ _ => ?_
  refine (Cycle.match_evaluate (Setting.alike_instantiate s (topmost concurrent') _ ∅ none) r₂).bind
    fun fragment r₃ _ => ?_
  refine (Cycle.match_onTree _ r₃).bind fun _ r₄ _ => ?_
  refine (findTruth_match (fun n => ?_) r₄).bind fun _ r₅ _ => generateLinks_match _ _ _ r₅
  exact (Setting.alike_evaluate (s := s) (l := topmost concurrent') ho none r₁.sentence.formula
    n.settled_commit).imp fun _ _ h => h.eq_of_commit

/-- **A cycle that rebuilds** matches one that does, whether or not branches are handed out. -/
theorem cycleFull_match (ho : engine.registry.Orderly) (batch : List Change)
    (concurrent concurrent' : Bool) (r : Rule) :
    Cycle.Match (cycleFull engine batch concurrent) (cycleFull engine batch concurrent') r := by
  refine (Cycle.match_onFacts _ r).bind fun _ r₁ _ => ?_
  refine (Cycle.match_onFacts _ r₁).bind fun _ r₂ _ => ?_
  exact rebuild_match ho concurrent concurrent' r₂

theorem restructure_match (focus : Focus) (l l' : List Nat) (r : Rule) :
    Cycle.Match (restructure engine focus l) (restructure engine focus l') r := by
  refine (Cycle.match_enter .modify r).bind fun _ r₁ _ => ?_
  refine Cycle.match_get (fun c hc => by rw [hc]) (fun c hc => by rw [hc]) ?_
  refine (Cycle.match_evaluate (Setting.alike_plan (r₁.setting engine focus l) l' r₁.tree) r₁).bind
    fun edits r₂ _ => ?_
  exact Cycle.match_onTree _ r₂

/-- The truths and the links of an edited instantiation are found alike, whether truths are held back
until the end or committed at once. -/
theorem resolve_match (ho : engine.registry.Orderly) {focus : Focus} {l : List Nat} {n : Node}
    (hP : r.facts.pools.Keyed)
    (h : (r.setting engine focus l).Edited r.sentence.formula r.tree n) (l' : List Nat) :
    Cycle.Match
      (do
        findTruth ((r.setting engine focus l).reevaluateBatch .hold r.sentence.formula)
        generateLinks engine focus l
        Cycle.onTree (modify Tree.commit))
      (do
        findTruth ((r.setting engine focus l').reevaluateBatch .commit r.sentence.formula)
        generateLinks engine focus l'
        pure ⟨⟩) r := by
  let s := r.setting engine focus l
  have halike : Eval.Alike (Settles .hold) (s.reevaluateBatch .hold r.sentence.formula n)
      ((s.handing l').reevaluateBatch .commit r.sentence.formula n) :=
    Setting.alike_reevaluateBatch ho r.sentence.formula (h.calm.settled .hold)
  have henv : n.cell.env = ∅ := congrArg Prod.snd h.place
  by_cases he : r.sentence.formula.Evaluates engine.registry r.facts.pools ∅
  · obtain ⟨b, hy, hb⟩ : ∃ b, (s.reevaluateBatch .hold r.sentence.formula n).Yields b ∧
        Evaluated engine.registry r.facts.pools .hold none r.sentence.formula n b :=
      Setting.reevaluateBatch_yields (s := s) hP h.placed h.prepared h.calm (henv ▸ he)
    obtain ⟨b', hy', -, hnode⟩ := halike.exists_yields hy
    let r₁ : Rule := { r with tree := { r.tree with root := some b.2 } }
    let r₂ : Rule := { r with tree := { r.tree with root := some b'.2 } }
    obtain ⟨t, -, ht, -, -, -⟩ := Setting.explainTree_yields (s := s) (t := r₁.tree)
      (Setting.explicable_of_evaluated hb h.place h.placed h.carried h.primed h.started h.owns)
    obtain ⟨t', ht', hcommit⟩ := (s.alike_explainTree l' .hold r₁.tree).exists_yields ht
    have hroot : r₁.tree.mapRoot (Node.map (Stage.settle .hold)) = r₂.tree :=
      congrArg (fun root => { r.tree with root := some root }) hnode
    rw [hroot] at ht'
    have hlinks : Cycle.Turns (generateLinks engine focus l) r₁ ⟨⟩ { r with tree := t } :=
      generateLinks_turns_of_yields ht
    have hlinks' : Cycle.Turns (generateLinks engine focus l') r₂ ⟨⟩ { r with tree := t' } :=
      generateLinks_turns_of_yields ht'
    subst hcommit
    refine .turns ⟨⟩ { r with tree := t.commit } ?_ ?_
    · exact (findTruth_turns h.root hy).bind (hlinks.bind (Cycle.turns_modifyTree Tree.commit _))
    · exact (findTruth_turns h.root hy').bind (hlinks'.bind (Cycle.turns_pure _ _))
  · obtain ⟨e, hfails, hfails'⟩ := halike.exists_fails (K := fun _ => True)
      ((Setting.reevaluateBatch_decided (s := s) (fun _ _ => trivial) hP h.placed h.prepared h.calm
        (Formula.answers_true ..)).fails (henv ▸ he))
    obtain ⟨_, rfl, hb⟩ := findTruth_breaks (r := r) h.root hfails
    obtain ⟨_, rfl, hb'⟩ := findTruth_breaks (r := r) h.root hfails'
    exact .breaks _ _ (hb.bind _) (hb'.bind _)

/-- **A cycle on a whole batch** matches one that does the same in sequence. -/
theorem cycleBatch_match (ho : engine.registry.Orderly) (h : r.Upright engine)
    (hd : r.facts.deltas = ∅) (batch : List Change) :
    Cycle.Match (cycleBatch engine batch true) (cycleBatch engine batch false) r := by
  refine (Cycle.match_onFacts _ r).bind fun _ r₁ h₁ => ?_
  refine (Cycle.match_onTree _ r₁).bind fun _ r₂ h₂ => ?_
  -- A batch that reaches the facts is valid, so the structure can be brought up to date.
  obtain ⟨n, hn, hcalm⟩ := h.tree
  obtain ⟨c, hok, -⟩ := h₁ { rule := r } rfl
  obtain ⟨_, hok⟩ := exists_of_onFacts hok
  obtain ⟨Q, hQ⟩ := FactStore.after?_of_applyBatch hok
  obtain ⟨facts, hfacts, rfl, hsep⟩ :=
    FactStore.applyBatch_ok (FactStore.separatedFrom_of_deltas_eq hd) h.keyed hQ
  obtain rfl := h₁.unique (Cycle.turns_onFacts hfacts)
  obtain rfl := h₂.unique (Cycle.turns_modifyTree Tree.beginCycle _)
  let focus := Focus.patterns (batch.map (·.pattern))
  let r₂ : Rule := { r with facts, tree := r.tree.beginCycle }
  let profitable := concurrentProfitable r₂.sentence r₂.facts focus
  have hfollows : (r₂.setting engine focus profitable).Follows r.facts.pools :=
    ⟨h.keyed, h.keyed.after? hQ, hsep, _, rfl, fun p hp =>
      (Pools.pool_after?_of_untouched hQ hp).symm⟩
  refine Cycle.match_get (fun c hc => by rw [hc]) (fun c hc => by rw [hc]) ?_
  refine (restructure_match focus profitable [] r₂).bind fun _ r₃ h₃ => ?_
  obtain ⟨tree, n', hturns, hedited, -⟩ := restructure_edited hfollows h.wellFormed rfl hn
    hcalm (h.linked n hn.root).all
  obtain rfl := h₃.unique hturns
  exact resolve_match ho (r := { r with facts, tree }) (h.keyed.after? hQ) hedited []

theorem process_match {sequential concurrent : Strategy} (ht : sequential.Twins concurrent)
    (ho : engine.registry.Orderly) (h : r.Rests engine) (batch : List Change) :
    Cycle.Match (process engine sequential batch) (process engine concurrent batch) r := by
  refine Cycle.match_get (fun c hc => by rw [hc]) (fun c hc => by rw [hc]) ?_
  dsimp only
  split_ifs with hrebuild
  · exact cycleFull_match ho batch false false r
  · cases ht with
    | full => exact cycleFull_match ho batch false true r
    | batch =>
      rw [Bool.or_eq_true, not_or, Option.isNone_iff_eq_none] at hrebuild
      have hu := (h.upright.resolve_left hrebuild.1).resolve_left hrebuild.2
      exact (cycleBatch_match ho hu h.deltas batch).symm

/-- **Cycles by twins match**, whatever the batch. -/
theorem cycle_match {sequential concurrent : Strategy} (ht : sequential.Twins concurrent)
    (ho : engine.registry.Orderly) (h : r.Rests engine) (batch : List Change) :
    Cycle.Match (cycle engine sequential batch) (cycle engine concurrent batch) r := by
  refine (process_match ht ho h batch).attempt.bind fun outcome r₁ _ => ?_
  refine (Cycle.match_onFacts _ r₁).bind fun _ r₂ _ => ?_
  match outcome with
  | .ok _ =>
    refine (Cycle.match_modifyRule _ r₂).bind fun _ r₃ _ => ?_
    refine Cycle.Match.bind ?_ fun _ r₄ _ => ?_
    · refine Cycle.match_get (fun c hc => by rw [hc]) (fun c hc => by rw [hc]) ?_
      exact (Cycle.match_ofExcept _ r₃).bind fun _ _ _ => Cycle.match_modifyRule _ _
    · refine Cycle.match_get (fun c hc => by rw [hc]) (fun c hc => by rw [hc]) ?_
      exact Cycle.match_ofExcept _ r₄
  | .error (.error e) =>
    dsimp only
    split_ifs
    · exact Cycle.match_modifyRule _ r₂
    · exact Cycle.match_throw _ r₂
  | .error (.crash c) => exact Cycle.match_throw _ r₂

variable (engine) in
theorem cycle_breaks {strategy : Strategy} (hs : strategy ≠ .change)
    (hv : r.facts.pools.after? batch = none) :
    ∃ e r', Cycle.Breaks (cycle engine strategy batch) r e r' := by
  cases h : FactStore.applyBatch batch r.facts with
  | ok u facts =>
    obtain ⟨Q, hQ⟩ := FactStore.after?_of_applyBatch h
    exact absurd (hv.symm.trans hQ) nofun
  | error e facts =>
    obtain ⟨text, rfl⟩ := FactStore.applyBatch_error h
    have happly := Cycle.breaks_onFacts (r := r) h
    have hprocess : Cycle.Breaks (process engine strategy batch) r (.inconsistent text)
        { r with facts } := by
      refine process_leads.breaks ?_
      split_ifs
      · exact happly.bind _
      · cases strategy with
        | change => exact absurd rfl hs
        | full | fullConcurrent | batch | batchConcurrent => exact happly.bind _
    exact ⟨_, _, cycle_breaks_of_process hprocess rfl⟩

/-- **A cycle that succeeds** leaves a rule at rest, whatever the batch, unless changes are processed
one at a time. -/
theorem rests_of_turns {strategy : Strategy} {u : Unit} {r' : Rule} (hs : strategy ≠ .change)
    (h : r.Rests engine) (ht : Cycle.Turns (cycle engine strategy batch) r u r') :
    r'.Rests engine ∧ r'.sentence = r.sentence := by
  cases hQ : r.facts.pools.after? batch with
  | some Q =>
    cases cycle_ends (K := fun _ => True) (fun _ h => h) h hQ (fun P => Formula.answers_true _ P _ ∅)
      strategy with
    | succeeds r'' hturns hsound hsent _ =>
      obtain rfl := hturns.unique ht
      exact ⟨hsound.rests, hsent⟩
    | aborts e r'' _ _ hturns hspoilt hsent =>
      obtain rfl := hturns.unique ht
      exact ⟨hspoilt.rests engine, hsent⟩
    | stops e r'' _ _ hbreaks => exact absurd ht hbreaks.not_turns
  | none =>
    obtain ⟨e, r'', hbreaks⟩ := cycle_breaks engine hs hQ
    exact absurd ht hbreaks.not_turns

end Rule

end RuleMonitor
