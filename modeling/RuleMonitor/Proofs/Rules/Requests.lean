import RuleMonitor.Proofs.Rules.Matching
import RuleMonitor.Proofs.Rules.Recovering

/-!
# Requests that are answered alike

A checker is asked to register rules and to check them, and answers with a report or with a failure.
Two checkers whose strategies are twins answer the same, and have the same rules, down to the slots of
their instantiations, as long as no predicate crashes. That goes for any requests, valid or not, up to
the first one that fails, and however many workers there are.

* `Request`, `Request.answers`: requests, and the answers to them.
* `Checker.Twins`: checkers that only differ in whether branches are handed out.
* **`Checker.Twins.perform`**: one request; **`Request.answers_match`**: any requests.
-/

namespace RuleMonitor

open Std (ExtTreeMap)

/-- A request to a checker. -/
inductive Request where
  /-- A sentence is registered over facts. -/
  | add (sentence : Sentence) (facts : List Change)
  /-- A rule is checked on a batch. -/
  | check (id : String) (batch : List Change)

namespace Request

/-- What a checker does about a request. -/
def perform : Request → Routine Checker Report
  | add s facts => Checker.addRule s facts
  | check id batch => Checker.checkBatch id batch

/-- The answers to requests up to the first failure, and the checker afterwards. -/
def answers : List Request → Checker → List (Except Failure Report) × Checker
  | [], c => ([], c)
  | request :: rest, c =>
    match request.perform c with
    | .ok report c' => ((answers rest c').1.cons (.ok report), (answers rest c').2)
    | .error e c' => ([.error e], c')

/-- Whatever is registered was built from a draft. -/
def Built : Request → Prop
  | add s _ => ∃ (d : Draft) (root : Nat), d.build root = .ok s
  | check _ _ => True

end Request

namespace Checker

/-! ## Twins -/

/-- Two checkers have the same rules, all of them at rest, and only differ in their accounts and in
whether branches are handed out. No predicate crashes. -/
structure Twins (c d : Checker) : Prop where
  strategies : c.options.strategy.Twins d.options.strategy
  orderly : c.registry.Orderly
  engine : d.engine = c.engine
  rules : d.rules = c.rules
  rests : ∀ (id : String) (r : Rule), c.rules[id]? = some r → r.Rests c.engine

/-- How a request ends at two checkers: both report the same and stay twins, or both fail with the same
failure and have the same rules. -/
inductive Agree (x : Routine Checker Report) (c d : Checker) : Prop
  | reports (report : Report) (c' d' : Checker) (left : x c = .ok report c')
      (right : x d = .ok report d') (twins : Twins c' d')
  | fails (e : Failure) (c' d' : Checker) (left : x c = .error e c') (right : x d = .error e d')
      (rules : d'.rules = c'.rules)

namespace Twins

variable {c d : Checker} {x : Routine Checker Report} {e : Failure}

theorem insert (h : Twins c d) {id : String} {r : Rule} (hr : r.Rests c.engine) {c' d' : Checker}
    (hc : c'.bare = ({ c with rules := c.rules.insert id r } : Checker).bare)
    (hd : d'.bare = ({ d with rules := d.rules.insert id r } : Checker).bare) : Twins c' d' where
  strategies := by
    rw [options_eq_of_bare hc, options_eq_of_bare hd]
    exact h.strategies
  orderly := by
    rw [registry_eq_of_bare hc]
    exact h.orderly
  engine := by
    rw [engine_eq_of_bare hc, engine_eq_of_bare hd]
    exact h.engine
  rules := by
    rw [rules_eq_of_bare hc, rules_eq_of_bare hd]
    exact congrArg (·.insert id r) h.rules
  rests := by
    intro id' r' hr'
    rw [engine_eq_of_bare hc]
    rw [rules_eq_of_bare hc, ExtTreeMap.getElem?_insert] at hr'
    split_ifs at hr'
    · exact Option.some.inj hr' ▸ hr
    · exact h.rests id' r' hr'

theorem agree_of_does (h : Twins c d) {id : String} {r : Rule} (hr : r.Rests c.engine)
    {report : Report} (hc : Does x c report { c with rules := c.rules.insert id r })
    (hd : Does x d report { d with rules := d.rules.insert id r }) : Agree x c d := by
  obtain ⟨c', hc', hbc⟩ := hc c rfl
  obtain ⟨d', hd', hbd⟩ := hd d rfl
  exact .reports report c' d' hc' hd' (h.insert hr hbc hbd)

theorem agree_of_stops (rules : ExtTreeMap String Rule) (hc : Stops x c e { c with rules })
    (hd : Stops x d e { d with rules }) : Agree x c d := by
  obtain ⟨c', hc', hbc⟩ := hc c rfl
  obtain ⟨d', hd', hbd⟩ := hd d rfl
  exact .fails e c' d' hc' hd' (by rw [rules_eq_of_bare hbc, rules_eq_of_bare hbd])

/-- **Twins agree** on a rule that is registered. -/
theorem agree_addRule (h : Twins c d) {s : Sentence} (hs : s.WellFormed) (facts : List Change) :
    Agree (addRule s facts) c d := by
  have hrules : ({ d with rules := c.rules } : Checker) = d := by rw [← h.rules]
  cases hnew : c.rules.contains s.rule with
  | true =>
    have hnew' : d.rules.contains s.rule = true := h.rules ▸ hnew
    have hd := stops_addRule_of_contains hnew' facts
    exact agree_of_stops c.rules (stops_addRule_of_contains hnew facts) (by rwa [hrules])
  | false =>
    have hnew' : d.rules.contains s.rule = false := h.rules ▸ hnew
    have hrests := Rule.rests_new hs c.engine
    cases (Rule.cycle_match .full h.orderly hrests
      (facts.filter fun f => s.mentions f.pattern)).left with
    | turns _ r hr _ =>
      have hchange : Strategy.full ≠ .change := nofun
      obtain ⟨hr', hsent⟩ := Rule.rests_of_turns hchange hrests hr
      exact h.agree_of_does hr' (does_addRule hnew hr hsent)
        (does_addRule hnew' (h.engine ▸ hr) hsent)
    | breaks e r hr _ =>
      have hd := stops_addRule hnew' (h.engine ▸ hr)
      exact agree_of_stops c.rules (stops_addRule hnew hr) (by rwa [hrules])

/-- **Twins agree** on a rule that is checked. -/
theorem agree_checkBatch (h : Twins c d) (id : String) (batch : List Change) :
    Agree (checkBatch id batch) c d := by
  have hrules : ({ d with rules := c.rules } : Checker) = d := by rw [← h.rules]
  cases hr : c.rules[id]? with
  | none =>
    have hr' : d.rules[id]? = none := h.rules ▸ hr
    have hd := stops_checkBatch_of_unknown hr' batch
    exact agree_of_stops c.rules (stops_checkBatch_of_unknown hr batch) (by rwa [hrules])
  | some r =>
    have hr' : d.rules[id]? = some r := h.rules ▸ hr
    have hrests := h.rests id r hr
    cases Rule.cycle_match h.strategies h.orderly hrests batch with
    | turns _ r₁ hc hd =>
      have hchange : c.options.strategy ≠ .change := h.strategies.ne_change
      exact h.agree_of_does (Rule.rests_of_turns hchange hrests hc).1 (does_checkBatch hr hc)
        (does_checkBatch hr' (h.engine ▸ hd))
    | breaks e r₁ hc hd =>
      have hd' := stops_checkBatch hr' (h.engine ▸ hd)
      rw [h.rules] at hd'
      exact agree_of_stops _ (stops_checkBatch hr hc) hd'

/-- **Twins agree** on every request. -/
theorem agree (h : Twins c d) {request : Request} (hb : request.Built) :
    Agree request.perform c d := by
  cases request with
  | add s facts =>
    obtain ⟨draft, root, hs⟩ := hb
    exact h.agree_addRule (Sentence.wellFormed_of_build hs) facts
  | check id batch => exact h.agree_checkBatch id batch

/-- **Twins answer the same**, and have the same rules afterwards. -/
theorem answers_eq {requests : List Request} (hb : ∀ request ∈ requests, request.Built) :
    ∀ {c d : Checker}, Twins c d → (Request.answers requests c).1 = (Request.answers requests d).1 ∧
      (Request.answers requests d).2.rules = (Request.answers requests c).2.rules := by
  induction requests with
  | nil => exact fun h => ⟨rfl, h.rules⟩
  | cons request rest ih =>
    intro c d h
    rw [List.forall_mem_cons] at hb
    unfold Request.answers
    cases h.agree hb.1 with
    | reports report c' d' hc hd htwins =>
      rw [hc, hd]
      obtain ⟨hanswers, hrules⟩ := ih hb.2 htwins
      exact ⟨congrArg (List.cons _) hanswers, hrules⟩
    | fails e c' d' hc hd hrules =>
      rw [hc, hd]
      exact ⟨rfl, hrules⟩

end Twins

/-- A checker without rules. -/
def fresh (strategy : Strategy) (minimalLinks : Bool) (threads : Nat) (registry : Registry) :
    Checker where
  options := { strategy, minimalLinks, threads }
  registry

end Checker

/-- **Handing branches out does not show.** A checker that hands branches out to any number of workers,
and that may hold truths back, answers any requests as the one that works in sequence, up to the first
failure, and has the same rules afterwards: the same facts, instantiations and statuses. -/
theorem Request.answers_match {reg : Registry} (ho : reg.Orderly)
    {sequential concurrent : Strategy} (ht : sequential.Twins concurrent) (minimalLinks : Bool)
    (threads threads' : Nat) {requests : List Request}
    (hb : ∀ request ∈ requests, request.Built) :
    (answers requests (.fresh concurrent minimalLinks threads' reg)).1 =
        (answers requests (.fresh sequential minimalLinks threads reg)).1 ∧
      (answers requests (.fresh concurrent minimalLinks threads' reg)).2.rules =
        (answers requests (.fresh sequential minimalLinks threads reg)).2.rules := by
  have htwins : (Checker.fresh sequential minimalLinks threads reg).Twins
      (.fresh concurrent minimalLinks threads' reg) :=
    ⟨ht, ho, rfl, rfl, fun id r hr => absurd (hr.symm.trans ExtTreeMap.getElem?_empty) nofun⟩
  obtain ⟨hanswers, hrules⟩ := Checker.Twins.answers_eq hb htwins
  exact ⟨hanswers.symm, hrules⟩

/-- Predicates that fail with nothing but errors of their own do not crash. -/
theorem Registry.FailsLocally.orderly {r : Registry} (h : r.FailsLocally) : r.Orderly := by
  intro name p hp args
  refine Outcome.sober_iff.mpr fun c hc => ?_
  cases h name p hp args _ hc

namespace Sample

/-- Two sensors are added and checked, one of them is found to have no state, and then it is deleted
twice. -/
def requests : List Request :=
  [.add sentence [change .addition 0 "0", change .addition 1 "0"],
    .check "calm" [change .update 0 "1"],
    .check "calm" [⟨.update, "sensor", 1, ∅⟩],
    .check "calm" [change .deletion 1 "0", change .deletion 1 "0"]]

theorem requests_built : ∀ request ∈ requests, request.Built := by
  intro request h
  simp only [requests, List.mem_cons, List.not_mem_nil, or_false] at h
  obtain rfl | rfl | rfl | rfl := h
  · exact ⟨draft, 1, build_draft⟩
  all_goals exact trivial

end Sample

theorem Request.answers_match_sample :
    Strategy.Twins .full .fullConcurrent ∧
    (answers Sample.requests (.fresh .fullConcurrent true 4 Sample.frailChecker.registry)).1 =
      (answers Sample.requests (.fresh .full true 1 Sample.frailChecker.registry)).1 ∧
    (answers Sample.requests (.fresh .fullConcurrent true 4 Sample.frailChecker.registry)).2.rules =
      (answers Sample.requests (.fresh .full true 1 Sample.frailChecker.registry)).2.rules :=
  ⟨.full, answers_match Sample.frailChecker_failsLocally.orderly .full true 1 4
    Sample.requests_built⟩

end RuleMonitor
