import RuleMonitor.Proofs.Monotone
import RuleMonitor.Proofs.Rules.Checking

/-!
# What the effect of an addition tells

The effect of an addition is read off the quantifier over the pattern and the negations around it. It
tells in which direction one more context moves the truth of the rule, whatever the pools and whatever
the context, and a checker reports these truths.

* `Sentence.Directed`: the direction that the effect of an addition tells.
* `Sentence.WellFormed.directed`: the formula moves in that direction.
* **`Checker.effects_sound`**: so do the truths that are evaluated and reported.
-/

namespace RuleMonitor

open Std (ExtTreeMap)

namespace Sentence

variable {s : Sentence} {r : Registry} {P : Pools} {p : String} {x : Context}

/-- The truths of the sentence without and with one more context of a pattern are in the direction
that the effect of the addition tells. -/
structure Directed (s : Sentence) (p : String) (without within : Bool) : Prop where
  plus : s.effectOf .addition p = .plus → within = true → without = true
  minus : s.effectOf .addition p = .minus → without = true → within = true
  other : s.mentions p = false → without = within

theorem isValid_addition (hx : P.live? p x.id = none) :
    (⟨.addition, p, x⟩ : Change).isValid P = true := by
  have hx : P.live? p (⟨.addition, p, x⟩ : Change).id = none := hx
  rw [Pools.isValid_iff, hx]
  simp

theorem WellFormed.directed (hs : s.WellFormed) (hx : P.live? p x.id = none) :
    s.Directed p (s.formula.holds r P ∅) (s.formula.holds r (P.step ⟨.addition, p, x⟩) ∅) :=
  have hw := Pools.within_step (isValid_addition hx) rfl
  { plus := fun he => hs.holds_of_plus hw he
    minus := fun he => hs.holds_of_minus hw he
    other := fun hp => holds_eq_of_within hw hp }

end Sentence

/-- **Effects are sound.** Where the predicates of a sentence never fail, its truths without and with
a context that is added are in the direction that the effect of the addition tells, over all pools.
They are the truths that a checker reports, whatever its options, before and after the addition. Of a
pattern that the sentence mentions, either additions or deletions can falsify it, and the others can
make it true. -/
theorem Checker.effects_sound {d : Draft} {root : Nat} {s : Sentence} {reg : Registry}
    (hs : d.build root = .ok s) (hd : reg.Decides s.formula) (p : String) :
    (∀ (P : Pools) (x : Context), P.live? p x.id = none →
      ∃ without within, s.formula.truth reg P ∅ = .ok without ∧
        s.formula.truth reg (P.step ⟨.addition, p, x⟩) ∅ = .ok within ∧
        s.Directed p without within ∧
        ∀ c : Checker, c.registry = reg → c.rules.contains s.rule = false →
          ∀ facts : List Change,
            (∅ : Pools).after? (facts.filter fun f => s.mentions f.pattern) = some P →
            ∃ before after, (∃ c', history s facts [[⟨.addition, p, x⟩]] c = .ok [before, after] c') ∧
              before.status.truth = .ofBool without ∧ after.status.truth = .ofBool within) ∧
    (s.mentions p = true →
      s.effectOf .addition p = .plus ∧ s.effectOf .deletion p = .minus ∨
        s.effectOf .addition p = .minus ∧ s.effectOf .deletion p = .plus) := by
  have hw := Sentence.wellFormed_of_build hs
  refine ⟨fun P x hx => ⟨_, _, Formula.truth_eq (hw.evaluates hd P),
    Formula.truth_eq (hw.evaluates hd _), hw.directed hx, ?_⟩, Sentence.effectOf_cases⟩
  rintro c rfl hnew facts hfacts
  have hQ : P.after? [⟨.addition, p, x⟩] = some (P.step ⟨.addition, p, x⟩) :=
    Pools.after?_cons_eq_some.mpr ⟨Sentence.isValid_addition hx, rfl⟩
  have hv : (∅ : Pools).afterEach?
      [facts.filter fun f => s.mentions f.pattern, [⟨.addition, p, x⟩]] =
      some [P, P.step ⟨.addition, p, x⟩] := by
    rw [Pools.afterEach?, hfacts, Option.bind_eq_bind, Option.bind_some, Pools.afterEach?, hQ]
    rfl
  obtain ⟨c', hdoes⟩ := history_does hnew hw hd hv
  obtain ⟨c₁, h₁, -⟩ := hdoes c rfl
  exact ⟨_, _, ⟨c₁, h₁⟩, rfl, rfl⟩

/-! ## A sample -/

namespace Sample

/-- No sensor lacks a valve that answers it: behind each calm one there is a calm valve. -/
def answeredDraft : Draft where
  rule := "answered"
  nodes := [.application ⟨"calm", [("v1", "x")]⟩, .application ⟨"calm", [("v1", "y")]⟩,
    .quantified { kind := .existential, var := "y", pattern := "valve", filter := some (.greater "x") } 1,
    .binary .implies 0 2, .negation 3,
    .quantified { kind := .existential, var := "x", pattern := "sensor" } 4, .negation 5]

/-- The sentence of the draft. -/
def answered : Sentence :=
  { answeredDraft with
    root := 6
    formula := .negation 6 (.quantified 5 { kind := .existential, var := "x", pattern := "sensor" }
      (.negation 4 (.binary 3 .implies (.application 0 ⟨"calm", [("v1", "x")]⟩)
        (.quantified 2 { kind := .existential, var := "y", pattern := "valve",
                         filter := some (.greater "x") }
          (.application 1 ⟨"calm", [("v1", "y")]⟩))))) }

theorem build_answered : answeredDraft.build 6 = .ok answered := rfl

theorem decides_answered : registry.Decides answered.formula := by
  intro a ha
  have hname : a.name = "calm" := by
    rcases List.mem_cons.mp ha with rfl | ha
    · rfl
    · rw [List.mem_singleton.mp ha]
  refine ⟨calm, ?_, fun contexts _ => ⟨_, rfl⟩⟩
  unfold Registry.find? registry Registry.register
  rw [hname, ExtTreeMap.getElem?_insert_self]

end Sample

theorem Checker.effects_sound_sample :
    Sample.answered.effectOf .addition "sensor" = .plus ∧
      Sample.answered.Directed "sensor" true false ∧
      ∃ before after,
        (∃ c', history Sample.answered [] [[Sample.change .addition 0 "0"]] Sample.checker =
          .ok [before, after] c') ∧
        before.status.truth = .yes ∧ after.status.truth = .no := by
  obtain ⟨hadd, -⟩ := effects_sound Sample.build_answered Sample.decides_answered "sensor"
  obtain ⟨without, within, h₀, h₁, hdirected, hreports⟩ :=
    hadd ∅ (Sample.change .addition 0 "0").context (Pools.live?_empty _ _)
  obtain rfl : without = true := Except.ok.inj (h₀.symm.trans (by decide +kernel))
  obtain rfl : within = false := Except.ok.inj (h₁.symm.trans (by decide +kernel))
  exact ⟨by decide, hdirected, hreports Sample.checker rfl ExtTreeMap.contains_empty [] rfl⟩

end RuleMonitor
