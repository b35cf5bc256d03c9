import RuleMonitor.Proofs.Arenas.Standing
import RuleMonitor.Schedule.Probe

/-!
# Rules whose instantiations are kept in arenas

A cycle edits the instantiation of a rule, and writes to it what evaluation found. Each of these steps
can be done by calls to an arena. So whatever batches a rule is checked on, by any strategies, and
whether the cycles succeed, are aborted or fail, there is an arena that stands for its instantiation.

* `Cycle.Stands`: an arena stands for the instantiation of the rule in a cycle.
* **`Rule.upholds_cycle`**, **`Rule.upholds_swapBranches`**: whole cycles, and replacements.
* **`Checker.upholds_addRule`**, **`Checker.upholds_checkBatch`**, **`Checker.upholds_replace`**: what a
  checker does to its rules.
-/

namespace RuleMonitor

open Std (ExtTreeMap)
open Routine (Upholds)

namespace Cycle

variable {s : Sentence} {c : Cycle} {α : Type}

/-- An arena that calls lead to stands for the instantiation of a rule over a sentence. -/
structure Stands (s : Sentence) (c : Cycle) : Prop where
  sentence : c.rule.sentence = s
  tree : c.rule.tree.Stands s

theorem upholds_enter (phase : Phase) : Upholds (Stands s) (enter phase) :=
  fun _ h => ⟨h.sentence, h.tree⟩

theorem upholds_evaluate (x : Eval α) : Upholds (Stands s) (evaluate x) :=
  Routine.upholds_onPart fun _ h => ⟨h.sentence, h.tree⟩

theorem upholds_onFacts (x : Routine FactStore α) : Upholds (Stands s) (onFacts x) :=
  Routine.upholds_onPart fun _ h => ⟨h.sentence, h.tree⟩

theorem upholds_onTree {x : Routine Tree α} (hx : ∀ t, t.Stands s → (x.after t).Stands s) :
    Upholds (Stands s) (onTree x) :=
  Routine.upholds_onPart fun _ h => ⟨h.sentence, hx _ h.tree⟩

theorem upholds_modifyTree {g : Tree → Tree} (hg : ∀ t, t.Stands s → (g t).Stands s) :
    Upholds (Stands s) (onTree (modify g)) :=
  upholds_onTree hg

theorem Stands.evaluate {x : Eval α} {f : α → Routine Cycle Unit} {Q : α → Prop} (h : c.Stands s)
    (hx : x.Ensures Q) (hf : ∀ a k, Q a → Stands s ((f a).after { c with fanOuts := k })) :
    Stands s ((Cycle.evaluate x >>= f).after c) := by
  cases hrun : x c.fanOuts with
  | ok a k =>
    have hok : Cycle.evaluate x c = .ok a { c with fanOuts := k } := Routine.onPart_ok hrun
    rw [Routine.after_bind_ok hok]
    exact hf a k (hx _ _ _ hrun)
  | error e k =>
    have herror : Cycle.evaluate x c = .error e { c with fanOuts := k } := Routine.onPart_error hrun
    rw [Routine.after_bind_error herror]
    exact ⟨h.sentence, h.tree⟩

end Cycle

namespace Rule

variable {s : Sentence} (engine : Engine) (focus : Focus) (concurrent : List Nat)

open RuleMonitor.Cycle (Stands upholds_enter upholds_evaluate upholds_onFacts upholds_onTree upholds_modifyTree)

/-! ## Parts of a cycle -/

theorem upholds_generateLinks : Upholds (Stands s) (generateLinks engine focus concurrent) := by
  refine (upholds_enter .links).bind fun _ c hc => ?_
  refine Stands.evaluate hc (Setting.explainTree_writes c.rule.tree) fun tree k htree => ?_
  refine ⟨hc.sentence, ?_⟩
  rcases htree with rfl | ⟨n, e, hn, hvisits, rfl⟩
  · exact hc.tree
  · exact hc.tree.explained hn hvisits

variable {evaluate : Node → Eval (Bool × Node)}

theorem upholds_findTruth (hwrites : ∀ n, (evaluate n).Ensures fun e => n.Written e.2) :
    Upholds (Stands s) (findTruth evaluate) := by
  intro c hc
  cases hroot : c.rule.tree.root with
  | none =>
    have herror : (Routine.ofExcept c.rule.tree.getRoot : Routine Cycle Node) c = .error _ c :=
      Routine.ofExcept_error (by rw [Tree.getRoot, hroot]) c
    exact Eq.subst (Routine.after_bind_error herror).symm hc
  | some n =>
    have hok : (Routine.ofExcept c.rule.tree.getRoot : Routine Cycle Node) c = .ok n c :=
      Routine.ofExcept_ok (by rw [Tree.getRoot, hroot]) c
    refine Eq.subst (motive := Stands s) (Routine.after_bind_ok hok).symm ?_
    exact Stands.evaluate (c := { c with phases := c.phases ++ [.truth] }) ⟨hc.sentence, hc.tree⟩ (hwrites n)
      fun e k he => ⟨hc.sentence, hc.tree.written hroot he⟩

theorem upholds_restructure : Upholds (Stands s) (restructure engine focus concurrent) :=
  (upholds_enter .modify).bind fun _ => .get fun _ hc => (upholds_evaluate _).bind fun edits =>
    upholds_onTree fun _ ht => hc.sentence ▸ ht.editAll edits

theorem upholds_updateStatus : Upholds (Stands s) updateStatus :=
  .get fun _ _ => (Routine.upholds_ofExcept _).bind fun _ => Routine.upholds_modify fun _ h =>
    ⟨h.sentence, h.tree⟩

/-! ## Whole cycles -/

theorem upholds_rebuild (concurrent : Bool) : Upholds (Stands s) (rebuild engine concurrent) := by
  refine (Routine.upholds_modify fun c hc => ⟨hc.sentence, Tree.stands_empty s⟩).bind fun _ => .get fun c hc => ?_
  refine (upholds_enter .modify).bind fun _ => (upholds_evaluate _).bind fun fragment => ?_
  refine (upholds_onTree fun t ht => hc.sentence ▸ ht.graft none fragment).bind fun _ => ?_
  exact (upholds_findTruth Setting.evaluate_writes).bind fun _ => upholds_generateLinks engine _ _

theorem upholds_cycleFull (batch : List Change) (concurrent : Bool) :
    Upholds (Stands s) (cycleFull engine batch concurrent) :=
  (upholds_onFacts _).bind fun _ => (upholds_onFacts _).bind fun _ => upholds_rebuild engine concurrent

theorem upholds_stepChange (change : Change) : Upholds (Stands s) (stepChange engine change) := by
  refine (upholds_onFacts _).bind fun _ => (upholds_onFacts _).bind fun _ => ?_
  refine (upholds_modifyTree fun _ ht => ht.beginCycle).bind fun _ => ?_
  refine (upholds_restructure engine _ _).bind fun _ => .get fun _ _ => ?_
  exact (upholds_findTruth Setting.reevaluateChange_writes).bind fun _ => upholds_generateLinks engine _ _

theorem upholds_stepsOf (change : Change) : Upholds (Stands s) (stepsOf change) := by
  unfold stepsOf
  cases change.kind with
  | update =>
    refine .get fun c _ => ?_
    cases c.rule.facts.get? change.pattern change.id with
    | some old => exact Routine.upholds_pure _
    | none => exact Routine.upholds_throw _
  | addition | deletion => exact Routine.upholds_pure _

theorem upholds_takeStep (failed : Option Error) (step : Change) :
    Upholds (Stands s) (takeStep engine failed step) := by
  cases failed with
  | some e => exact (upholds_onFacts _).bind fun _ => Routine.upholds_pure _
  | none =>
    refine (upholds_stepChange engine step).attempt.bind fun outcome => ?_
    rcases outcome with (e | crash) | _
    · exact (Routine.upholds_throw _).ite (Routine.upholds_pure _)
    · exact Routine.upholds_throw _
    · exact Routine.upholds_pure _

theorem upholds_takeSteps (steps : List Change) : ∀ failed : Option Error,
    Upholds (Stands s) (takeSteps engine failed steps) := by
  induction steps with
  | nil => exact fun _ => Routine.upholds_pure _
  | cons step steps ih => exact fun failed => (upholds_takeStep engine failed step).bind ih

theorem upholds_takeChanges (batch : List Change) : ∀ failed : Option Error,
    Upholds (Stands s) (takeChanges engine failed batch) := by
  induction batch with
  | nil => exact fun _ => Routine.upholds_pure _
  | cons change batch ih =>
    exact fun failed => (upholds_stepsOf change).bind fun steps =>
      (upholds_takeSteps engine steps failed).bind ih

theorem upholds_cycleChanges (batch : List Change) : Upholds (Stands s) (cycleChanges engine batch) := by
  refine (upholds_takeChanges engine batch none).bind fun failed => ?_
  cases failed with
  | some e => exact Routine.upholds_throw _
  | none => exact Routine.upholds_pure _

theorem upholds_cycleBatch (batch : List Change) (concurrent : Bool) :
    Upholds (Stands s) (cycleBatch engine batch concurrent) := by
  refine (upholds_onFacts _).bind fun _ => (upholds_modifyTree fun _ ht => ht.beginCycle).bind fun _ => ?_
  refine .get fun _ _ => (upholds_restructure engine _ _).bind fun _ => ?_
  refine (upholds_findTruth Setting.reevaluateBatch_writes).bind fun _ => ?_
  refine (upholds_generateLinks engine _ _).bind fun _ => ?_
  exact (upholds_modifyTree fun _ ht => ht.commit).ite (Routine.upholds_pure _)

theorem upholds_process (strategy : Strategy) (batch : List Change) :
    Upholds (Stands s) (process engine strategy batch) := by
  refine .get fun c _ => (upholds_cycleFull engine batch false).ite ?_
  cases strategy with
  | full => exact upholds_cycleFull engine batch false
  | fullConcurrent => exact upholds_cycleFull engine batch true
  | change => exact upholds_cycleChanges engine batch
  | batch => exact upholds_cycleBatch engine batch false
  | batchConcurrent => exact upholds_cycleBatch engine batch true

/-- **A cycle**, whatever it ends with, does to the instantiation what calls do to an arena. -/
theorem upholds_cycle (strategy : Strategy) (batch : List Change) :
    Upholds (Stands s) (cycle engine strategy batch) := by
  refine (upholds_process engine strategy batch).attempt.bind fun outcome => ?_
  refine (upholds_onFacts _).bind fun _ => ?_
  rcases outcome with (e | crash) | _
  · exact (Routine.upholds_modify fun _ h => ⟨h.sentence, h.tree⟩).ite (Routine.upholds_throw _)
  · exact Routine.upholds_throw _
  · refine (Routine.upholds_modify fun _ h => ⟨h.sentence, h.tree⟩).bind fun _ => ?_
    exact upholds_updateStatus.bind fun _ => .get fun _ _ => Routine.upholds_ofExcept _

/-- **A replacement**, whatever it ends with. -/
theorem upholds_swapBranches (pattern var : String) (del add : Context) (branches : List Nat) :
    Upholds (Stands s) (swapBranches pattern var del add branches) := by
  refine (Routine.upholds_forM (fun branch => upholds_onTree fun _ ht => ht.rebind branch var add)
    branches).bind fun _ => ?_
  have hrest : Upholds (Stands s) (do
      Cycle.onFacts (FactStore.swap pattern del.id add)
      updateStatus) := (upholds_onFacts _).bind fun _ => upholds_updateStatus
  exact .check (upholds_modifyTree fun _ ht => ht.renameLinks var del.id add.id) hrest

end Rule

namespace Checker

variable {id : String} {s : Sentence} {c : Checker}

/-! ## Rules of a checker -/

/-- If the checker has a rule with an identifier, it is one over a sentence, and an arena stands for its
instantiation. -/
def Stands (id : String) (s : Sentence) (c : Checker) : Prop :=
  ∀ r, c.rules[id]? = some r → r.sentence = s ∧ r.tree.Stands s

theorem Stands.insert {id' : String} {r : Rule} (hc : c.Stands id s)
    (hr : id' = id → r.sentence = s ∧ r.tree.Stands s) :
    Stands id s { c with rules := c.rules.insert id' r } := by
  intro r' hr'
  rw [Map.getElem?_insert] at hr'
  split_ifs at hr' with heq
  · cases hr'
    exact hr heq
  · exact hc r' hr'

theorem upholds_noteAborted (r : Rule) : Upholds (Stands id s) (noteAborted r) := by
  unfold noteAborted
  cases r.lastError with
  | some e => exact Routine.upholds_modify fun _ h => h
  | none => exact Routine.upholds_pure _

theorem upholds_noteRebuilt (r : Rule) : Upholds (Stands id s) (noteRebuilt r) :=
  (Upholds.bind (fun _ h => h) fun _ _ h => h).ite (Routine.upholds_pure _)

/-- **Work on a rule** that an arena stands for. -/
theorem upholds_onRule {α : Type} {x : Routine Cycle α} (hx : ∀ s, Upholds (Cycle.Stands s) x)
    (id' : String) : Upholds (Stands id s) (onRule id' x) := by
  intro c hc
  cases hr : c.rules[id']? with
  | none =>
    have herror : onRule id' x c = .error (unknownRule id') c := by rw [onRule, hr]
    rwa [Routine.after_eq_of_error herror]
  | some r =>
    have hafter : (onRule id' x).after c = { absorb (x.after { rule := r }) c with
        rules := c.rules.insert id' (x.after { rule := r }).rule } := by
      unfold onRule Routine.after
      simp only [hr]
      cases x { rule := r } <;> rfl
    rw [hafter]
    refine Stands.insert (c := absorb _ c) hc fun heq => ?_
    obtain ⟨hsentence, htree⟩ := hc r (heq ▸ hr)
    have hcycle := hx s { rule := r } ⟨hsentence, htree⟩
    exact ⟨hcycle.sentence, hcycle.tree⟩

/-- **A rule that is checked**, whatever the batch is. -/
theorem upholds_checkBatch (id' : String) (batch : List Change) :
    Upholds (Stands id s) (checkBatch id' batch) := by
  refine .get fun c _ => (Routine.upholds_ofExcept _).bind fun before => ?_
  refine Upholds.bind (fun _ h => h) fun _ => (upholds_noteRebuilt before).bind fun _ => ?_
  refine (upholds_onRule (fun _ => Rule.upholds_cycle _ _ _) id').bind fun _ => .get fun _ _ => ?_
  refine (Routine.upholds_ofExcept _).bind fun r => (upholds_noteAborted r).bind fun _ => ?_
  exact fun _ h => h

/-- **A replacement** in a rule. -/
theorem upholds_replace (rep : Replacement) : Upholds (Stands id s) (replace rep) :=
  upholds_onRule (fun _ => Rule.upholds_swapBranches _ _ _ _ _) rep.rule

/-- **A rule that is registered** has an instantiation that an arena stands for. -/
theorem upholds_addRule {s' : Sentence} (facts : List Change) (hs : s'.rule = id → s' = s) :
    Upholds (Stands id s) (addRule s' facts) := by
  refine .get fun c _ => .check (Routine.upholds_throw _) ?_
  intro d hd
  let x := Rule.cycle c.engine .full (facts.filter fun change => s'.mentions change.pattern)
  have hx : (x.after { rule := { sentence := s' } }).Stands s' :=
    Rule.upholds_cycle _ _ _ _ ⟨rfl, Tree.stands_empty s'⟩
  cases hrun : x { rule := { sentence := s' } } with
  | error e cycle =>
    have herror : onNewRule { sentence := s' } x d = .error e (absorb cycle d) := by
      unfold onNewRule
      rw [hrun]
    exact Eq.subst (motive := Stands id s) (Routine.after_bind_error herror).symm hd
  | ok u cycle =>
    have hok : onNewRule { sentence := s' } x d = .ok cycle.rule (absorb cycle d) := by
      unfold onNewRule
      rw [hrun]
    rw [Routine.after_eq hrun] at hx
    refine Eq.subst (motive := Stands id s) (Routine.after_bind_ok hok).symm ?_
    have hrest : Upholds (Stands id s) (do
        noteAborted cycle.rule
        note .info s!"registered rule `{cycle.rule.id}`: {cycle.rule.status.render}"
        modify fun c => { c with rules := c.rules.insert cycle.rule.id cycle.rule }
        return cycle.rule.report) := by
      refine (upholds_noteAborted _).bind fun _ => Upholds.bind (fun _ h => h) fun _ => ?_
      refine (Routine.upholds_modify fun _ h => h.insert fun hid => ?_).bind fun _ => Routine.upholds_pure _
      have hs' : s' = s := hs (hx.sentence ▸ hid)
      exact hs' ▸ ⟨hx.sentence, hx.tree⟩
    exact hrest _ hd

end Checker

end RuleMonitor
