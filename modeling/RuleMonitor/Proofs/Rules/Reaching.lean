import RuleMonitor.Proofs.Rules.Checking
import RuleMonitor.Proofs.Rules.Replacing
import RuleMonitor.Proofs.Rules.Standing

/-!
# What is true of every instantiation

Whatever a checker was asked to do with a rule, by any strategy and however often the strategy changed,
the instantiation of the rule is that of its formula over its facts, and all truths in it are those of
the formula.

* `Checker.Reaches`: the states that valid operations lead to.
* **`Checker.probe_ends`**, **`Checker.replace_does`**: probes and replacements of a rule.
* **`Checker.reaches_instance`**: the instantiation of a rule in such a state, and the arena that stands
  for it.
-/

namespace RuleMonitor

open Std (ExtTreeMap)

namespace Checker

variable {c : Checker} {s : Sentence} {P Q : Pools} {r : Rule} {del add : Context} {p : String}

/-- The replacement makes `add` take the place of `del` in a pattern, and a sound rule can make it. -/
def Suits (c : Checker) (r : Rule) (p : String) (del add : Context) (rep : Replacement) : Prop :=
  rep.pattern = p ∧ rep.del = del ∧ rep.add = add ∧
    ∃ n, r.tree.Right c.engine r.facts.pools r.sentence.formula n ∧ n.Calm ∧
      rep.Fits c.engine.registry r.facts.pools r.sentence n

variable (add) in
/-- **A probe of a sound rule** succeeds or fails with a predicate, and a replacement that it finds
suits. -/
theorem probe_ends {id : String} {K : Failure → Prop} (hK : Failure.CrashClosed K)
    (hr : c.rules[id]? = some r) (hs : r.Sound c.engine)
    (hd : c.registry.FailsIn K r.sentence.formula)
    (hlive : r.facts.pools.live? p del.id = some del) :
    (∃ o, c.probe id p del add = .ok o ∧ ∀ rep, o = some rep → c.Suits r p del add rep) ∨
      ∃ e, K e ∧ c.probe id p del add = .error e := by
  obtain ⟨n, hright, hcalm⟩ := hs.tree
  let s := r.setting c.engine .nothing []
  have hprobe : c.probe id p del add = (s.probe r.tree p del add).value 0 := by
    unfold probe withSetting rule
    rw [hr]
    rfl
  rw [hprobe]
  rcases Setting.probe_yields_or_fails (s := s) add hK hs.wellFormed hd hs.keyed
    hright.root hright.owns.nodup hright.placed hright.found hcalm hlive with ⟨o, hy, ho⟩ | ⟨e, he, hf⟩
  · refine .inl ⟨o, hy.value 0, fun rep h => ?_⟩
    obtain ⟨hp, hd, ha, hfits⟩ := ho rep h
    exact ⟨hp, hd, ha, n, hright, hcalm, hfits⟩
  · obtain ⟨k, hk⟩ := hf 0
    exact .inr ⟨e, he, Routine.value_error hk⟩

theorem suits_of_probe {id : String} {rep : Replacement} (hr : c.rules[id]? = some r)
    (hs : r.Sound c.engine) (hlive : r.facts.pools.live? p del.id = some del)
    (hprobe : c.probe id p del add = .ok (some rep)) : c.Suits r p del add rep := by
  rcases probe_ends add (K := fun _ => True) (fun _ h => h) hr hs
    (fun _ _ _ _ _ _ => trivial) hlive with ⟨o, ho, hsuits⟩ | ⟨e, -, he⟩
  · exact hsuits rep (Except.ok.inj (ho.symm.trans hprobe))
  · exact nomatch he.symm.trans hprobe

/-- **A replacement that suits** keeps the rule sound and the truths of all nodes, and exchanges the
contexts in its facts. -/
theorem replace_does {rep : Replacement} (hr : c.rules[r.id]? = some r) (hs : r.Sound c.engine)
    (hx : r.facts.pools.Exchangeable p del add) (hrep : c.Suits r p del add rep) :
    ∃ r', Does (replace rep) c ⟨⟩ { c with rules := c.rules.insert r.id r' } ∧ r'.Sound c.engine ∧
      r'.sentence = r.sentence ∧ r'.facts.pools = r.facts.pools.exchange p del.id add ∧
      r'.tree.truths = r.tree.truths := by
  obtain ⟨rfl, rfl, rfl, n, hright, hcalm, hfits⟩ := hrep
  obtain ⟨r', hturns, hs', hrest⟩ := Rule.swapBranches_turns hs hright hcalm hfits hx
  have hid : rep.rule = r.id := hfits.rule
  refine ⟨r', ?_, hs', hrest⟩
  unfold replace
  rw [hid]
  exact does_onRule hr hturns

/-! ## Reachable states -/

/-- Valid operations lead to a checker with a rule for a sentence, and to the pools of the rule. The
strategy may change in between, and whatever happens to other rules does not matter. -/
inductive Reaches (reg : Registry) (s : Sentence) : Checker → Pools → Prop
  | added {c : Checker} {facts : List Change} {Q : Pools} (hreg : c.registry = reg)
      (hnew : c.rules.contains s.rule = false)
      (hv : (∅ : Pools).after? (facts.filter fun f => s.mentions f.pattern) = some Q) :
      Reaches reg s ((addRule s facts).after c) Q
  | checked {c : Checker} {batch : List Change} {Q Q' : Pools} (hc : Reaches reg s c Q)
      (hv : Q.after? batch = some Q') : Reaches reg s ((checkBatch s.rule batch).after c) Q'
  | replaced {c : Checker} {p : String} {del add : Context} {rep : Replacement} {Q : Pools}
      (hc : Reaches reg s c Q) (hlive : Q.live? p del.id = some del)
      (hfree : add.id ≠ del.id → Q.live? p add.id = none)
      (hprobe : c.probe s.rule p del add = .ok (some rep)) :
      Reaches reg s ((replace rep).after c) (Q.exchange p del.id add)
  | other {c c' : Checker} {Q : Pools} (hc : Reaches reg s c Q) (hreg : c'.registry = c.registry)
      (hmin : c'.options.minimalLinks = c.options.minimalLinks)
      (hrule : c'.rules[s.rule]? = c.rules[s.rule]?) : Reaches reg s c' Q

/-- **The rule is sound** in every reachable state. -/
theorem Reaches.monitors {reg : Registry} (hs : s.WellFormed) (hd : reg.Decides s.formula)
    (h : Reaches reg s c Q) : c.registry = reg ∧ c.Monitors s Q := by
  induction h with
  | @added c facts Q hreg hnew hv =>
    obtain ⟨r, hdoes, hr, hsent, hP⟩ := addRule_does hnew hs (hreg.symm ▸ hd) hv
    obtain ⟨c', hok, hb⟩ := hdoes c rfl
    rw [Routine.after_eq hok]
    exact ⟨(registry_eq_of_bare hb).trans hreg, monitors_insert hb hr hsent hP⟩
  | @checked c batch Q Q' _ hv ih =>
    obtain ⟨hreg, r, hr, hsound, rfl, rfl⟩ := ih
    obtain ⟨r', hdoes, hr', hsent, hP⟩ := checkBatch_does hr hsound (hreg.symm ▸ hd) hv
    obtain ⟨c', hok, hb⟩ := hdoes c rfl
    rw [Routine.after_eq hok]
    exact ⟨(registry_eq_of_bare hb).trans hreg, monitors_insert hb hr' hsent hP⟩
  | @replaced c p del add rep Q _ hlive hfree hprobe ih =>
    obtain ⟨hreg, r, hr, hsound, rfl, rfl⟩ := ih
    obtain ⟨r', hdoes, hr', hsent, hP, -⟩ := replace_does hr hsound ⟨hlive, hfree⟩
      (suits_of_probe hr hsound hlive hprobe)
    obtain ⟨c', hok, hb⟩ := hdoes c rfl
    rw [Routine.after_eq hok]
    exact ⟨(registry_eq_of_bare hb).trans hreg, monitors_insert hb hr' hsent hP⟩
  | @other c c' Q _ hreg hmin hrule ih =>
    refine ⟨hreg.trans ih.1, ih.2.congr hrule ?_⟩
    unfold engine
    rw [hreg, hmin]

/-- In every reachable state, calls lead to an arena that stands for the instantiation of the rule. -/
theorem Reaches.stands {reg : Registry} (h : Reaches reg s c Q) : c.Stands s.rule s := by
  induction h with
  | @added c facts Q _ hnew _ =>
    refine upholds_addRule facts (fun _ => rfl) c fun r hr => ?_
    rw [ExtTreeMap.contains_eq_isSome_getElem?, hr] at hnew
    cases hnew
  | checked _ _ ih => exact upholds_checkBatch _ _ _ ih
  | replaced _ _ _ _ ih => exact upholds_replace _ _ ih
  | other _ _ _ hrule ih => exact fun r hr => ih r (hrule ▸ hr)

/-- **The instantiation of a rule** in every reachable state is that of its formula over its facts: the
branches of every quantifier are those of the contexts that it admits, with the variables read as the
contexts that are live, all truths are those of the formula, and they are recorded. It passes the check,
and so does the arena that stands for it, with all links and tables that were kept there call by call. -/
theorem reaches_instance {reg : Registry} {d : Draft} {root : Nat} (hs : d.build root = .ok s)
    (hd : reg.Decides s.formula) (h : Reaches reg s c Q) :
    ∃ r n, c.rules[s.rule]? = some r ∧ r.sentence = s ∧ r.facts.pools = Q ∧
      r.tree.root = some n ∧ s.formula.Instance Q ∅ none n ∧ s.formula.Settled reg Q n ∧
      r.tree.check s = .ok () ∧ ∃ a, Arena.Reached s a ∧ a.tree = r.tree ∧ a.check s = .ok () := by
  have hstands := h.stands
  have hw := Sentence.wellFormed_of_build hs
  obtain ⟨rfl, r, hr, hsound, rfl, rfl⟩ := h.monitors hw hd
  obtain ⟨n, hright, hcalm⟩ := hsound.tree
  have henv : n.cell.env = ∅ := hright.env
  have hbound : n.cell.bound = none := congrArg Prod.fst hright.place
  have hev : r.sentence.formula.Evaluates c.registry r.facts.pools n.cell.env := by
    rw [henv]
    exact hsound.evaluates
  have hcheck := Tree.check_ok hsound.keyed hw hright.root hright.owns hright.placed hright.found hcalm
  obtain ⟨a, hreached, htree, hsame⟩ := (hstands r hr).2.exists_check
  exact ⟨r, n, hr, rfl, rfl, hright.root, Formula.instance_of_placed hright.placed henv hbound,
    Formula.settled_of_found hright.placed hright.found hcalm hev, hcheck, a, hreached, htree,
    hsame.symm.trans hcheck⟩

end Checker

namespace Sample

/-- The second sensor in the place of the first one. -/
def replacement : Replacement where
  rule := "calm"
  pattern := "sensor"
  var := "x"
  del := (change .addition 0 "0").context
  add := (change .addition 1 "0").context
  branches := [1]

/-- A rule registered over a sensor. -/
def registered : Checker :=
  (Checker.addRule sentence [change .addition 0 "0"]).after checker

/-- The pools after the second sensor took the place of the first one. -/
def exchanged : Pools :=
  ((∅ : Pools).step (change .addition 0 "0")).exchange "sensor" replacement.del.id replacement.add

end Sample

theorem Checker.reaches_instance_sample : ∃ r n,
    ((replace Sample.replacement).after Sample.registered).rules["calm"]? = some r ∧
      r.sentence = Sample.sentence ∧ r.facts.pools = Sample.exchanged ∧ r.tree.root = some n ∧
      Sample.sentence.formula.Instance Sample.exchanged ∅ none n ∧
      Sample.sentence.formula.Settled Sample.registry Sample.exchanged n ∧
      r.tree.check Sample.sentence = .ok () ∧
      ∃ a, Arena.Reached Sample.sentence a ∧ a.tree = r.tree ∧ a.check Sample.sentence = .ok () := by
  have hadded : Reaches Sample.registry Sample.sentence Sample.registered
      ((∅ : Pools).step (Sample.change .addition 0 "0")) :=
    .added rfl ExtTreeMap.contains_empty rfl
  have hprobe : Sample.registered.probe Sample.sentence.rule "sensor" Sample.replacement.del
      Sample.replacement.add = .ok (some Sample.replacement) := by decide
  have hlive : ((∅ : Pools).step (Sample.change .addition 0 "0")).live? "sensor"
      Sample.replacement.del.id = some Sample.replacement.del := by decide
  have hreplaced : Reaches Sample.registry Sample.sentence
      ((replace Sample.replacement).after Sample.registered) Sample.exchanged :=
    hadded.replaced hlive (by decide) hprobe
  exact reaches_instance Sample.build_draft
    Sample.registry_decides hreplaced

end RuleMonitor
