import Mathlib.Data.List.TakeWhile
import Mathlib.Data.Nat.Digits.Defs
import Mathlib.Tactic.Ring
import RuleMonitor.Predicate
import RuleMonitor.Proofs.Collections

/-!
# Timestamps that are compared

A timestamp is an integer of 64 bits, written in decimal with an optional sign, and blanks may stand
around it. Two predicates compare the timestamps of two contexts. The one that orders them gives the
truth about the integers. The other one asks whether the first timestamp follows the second by less than
a hundred: it takes the difference, which need not have 64 bits, and crashes when it has more.

* `Text.Numeral`, `Text.Reads`: integers as they are written; **`Text.integer?_trimBlanks`**: all of them
  are read, and nothing else.
* `Context.Timed`: the timestamp of a context; `Registry.Places`: the contexts that are compared.
* **`Registry.timestamps_compared`**: what both predicates answer.
* `Registry.sameTime_overflows`: two timestamps that are too far apart.
-/

namespace RuleMonitor

open Std (ExtTreeMap)

/-! ## Integers as they are written -/

namespace Text

variable {cs ds before written after : List Char} {n : Int}

/-- At least one ASCII digit, and nothing else. -/
def IsDigits (ds : List Char) : Prop :=
  ds ≠ [] ∧ ∀ c ∈ ds, c.isDigit = true

/-- The number that digits write, the highest of them first. -/
def decimalValue (ds : List Char) : Nat :=
  Nat.ofDigits 10 (ds.reverse.map fun c => c.toNat - '0'.toNat)

/-- An integer as it is written: digits behind an optional sign. -/
inductive Numeral : List Char → Int → Prop
  | bare {ds : List Char} (h : IsDigits ds) : Numeral ds (decimalValue ds)
  | plus {ds : List Char} (h : IsDigits ds) : Numeral ('+' :: ds) (decimalValue ds)
  | minus {ds : List Char} (h : IsDigits ds) : Numeral ('-' :: ds) (-decimalValue ds)

/-- The text is an integer of 64 bits, with blanks around it. -/
def Reads (cs : List Char) (n : Int) : Prop :=
  ∃ before written after, cs = before ++ (written ++ after) ∧ (∀ c ∈ before, isBlank c = true) ∧
    (∀ c ∈ after, isBlank c = true) ∧ Numeral written n ∧ -2 ^ 63 ≤ n ∧ n < 2 ^ 63

theorem decimalValue_cons (c : Char) (ds : List Char) :
    decimalValue (c :: ds) = (c.toNat - '0'.toNat) * 10 ^ ds.length + decimalValue ds := by
  simp only [decimalValue, List.reverse_cons, List.map_append, Nat.ofDigits_append, List.length_map,
    List.length_reverse, List.map_cons, List.map_nil, Nat.ofDigits_singleton]
  ring

theorem decimalFrom_eq_some {k : Nat} : ∀ {acc : Nat}, decimalFrom acc ds = some k ↔
    (∀ c ∈ ds, c.isDigit = true) ∧ k = acc * 10 ^ ds.length + decimalValue ds := by
  induction ds with
  | nil =>
    intro acc
    have hvalue : acc * 10 ^ 0 + decimalValue [] = acc := Nat.mul_one acc
    rw [List.length_nil, hvalue]
    exact ⟨fun h => ⟨nofun, (Option.some.inj h).symm⟩, fun h => congrArg some h.2.symm⟩
  | cons c ds ih =>
    intro acc
    rw [decimalFrom, List.forall_mem_cons, decimalValue_cons, List.length_cons]
    split_ifs with hc
    · rw [ih]
      simp only [hc, true_and]
      refine and_congr_right fun _ => Eq.congr_right ?_
      ring
    · simp [hc]

theorem decimal?_eq_some {k : Nat} : decimal? ds = some k ↔ IsDigits ds ∧ k = decimalValue ds := by
  cases ds with
  | nil => simp [decimal?, IsDigits]
  | cons c ds =>
    rw [IsDigits, and_iff_right (List.cons_ne_nil c ds)]
    change decimalFrom 0 (c :: ds) = some k ↔ _
    rw [decimalFrom_eq_some, Nat.zero_mul, Nat.zero_add]

theorem isInt64_iff : isInt64 n = true ↔ -2 ^ 63 ≤ n ∧ n < 2 ^ 63 := by
  simp [isInt64]

theorem integer?_eq_some : integer? cs = some n ↔ Numeral cs n ∧ -2 ^ 63 ≤ n ∧ n < 2 ^ 63 := by
  have hsign : ∀ {c : Char}, ¬ c.isDigit = true → ∀ ds, ¬ IsDigits (c :: ds) :=
    fun hc ds h => hc (h.2 _ List.mem_cons_self)
  unfold integer?
  rw [Option.filter_eq_some_iff, isInt64_iff]
  refine and_congr_left fun _ => ?_
  split
  next ds =>
    rw [Option.map_eq_some_iff]
    constructor
    · rintro ⟨k, hk, rfl⟩
      obtain ⟨hd, rfl⟩ := decimal?_eq_some.mp hk
      exact .plus hd
    · rintro (h | h)
      · exact absurd h (hsign (by decide) ds)
      · exact ⟨_, decimal?_eq_some.mpr ⟨h, rfl⟩, rfl⟩
  next ds =>
    rw [Option.map_eq_some_iff]
    constructor
    · rintro ⟨k, hk, rfl⟩
      obtain ⟨hd, rfl⟩ := decimal?_eq_some.mp hk
      exact .minus hd
    · rintro (h | _ | h)
      · exact absurd h (hsign (by decide) ds)
      · exact ⟨_, decimal?_eq_some.mpr ⟨h, rfl⟩, rfl⟩
  next hplus hminus =>
    rw [Option.map_eq_some_iff]
    constructor
    · rintro ⟨k, hk, rfl⟩
      obtain ⟨hd, rfl⟩ := decimal?_eq_some.mp hk
      exact .bare hd
    · rintro (h | h | h)
      · exact ⟨_, decimal?_eq_some.mpr ⟨h, rfl⟩, rfl⟩
      · exact absurd rfl (hplus _)
      · exact absurd rfl (hminus _)

/-! ## Blanks around a text -/

theorem dropBlanks_append (h : ∀ c ∈ before, isBlank c = true)
    (hw : ∀ c ∈ written.head?, isBlank c = false) : dropBlanks (before ++ written) = written := by
  unfold dropBlanks
  rw [List.dropWhile_append_of_pos h]
  cases written with
  | nil => rfl
  | cons c written => rw [List.dropWhile_cons, hw c rfl, if_neg Bool.false_ne_true]

theorem trimBlanks_append (hbefore : ∀ c ∈ before, isBlank c = true)
    (hafter : ∀ c ∈ after, isBlank c = true) (hne : written ≠ [])
    (hw : ∀ c ∈ written, isBlank c = false) : trimBlanks (before ++ (written ++ after)) = written := by
  have hhead : ∀ {l : List Char}, l ≠ [] → (∀ c ∈ l, isBlank c = false) → ∀ r, ∀ c ∈ (l ++ r).head?,
      isBlank c = false := fun hl h r c hc => by
    obtain ⟨x, xs, rfl⟩ := List.exists_cons_of_ne_nil hl
    obtain rfl := Option.some.inj hc
    exact h x List.mem_cons_self
  unfold trimBlanks
  rw [dropBlanks_append hbefore (hhead hne hw after), List.reverse_append,
    dropBlanks_append (fun c hc => hafter c (List.mem_reverse.mp hc)), List.reverse_reverse]
  rw [← List.append_nil written.reverse]
  exact hhead (List.reverse_ne_nil_iff.mpr hne) (fun c hc => hw c (List.mem_reverse.mp hc)) []

theorem exists_dropBlanks (cs : List Char) :
    ∃ before, cs = before ++ dropBlanks cs ∧ ∀ c ∈ before, isBlank c = true :=
  ⟨cs.takeWhile isBlank, List.takeWhile_append_dropWhile.symm, fun _ => List.mem_takeWhile_imp⟩

theorem exists_trimBlanks (cs : List Char) : ∃ before after, cs = before ++ (trimBlanks cs ++ after) ∧
    (∀ c ∈ before, isBlank c = true) ∧ ∀ c ∈ after, isBlank c = true := by
  obtain ⟨before, hbefore, hb⟩ := exists_dropBlanks cs
  obtain ⟨after, hafter, ha⟩ := exists_dropBlanks (dropBlanks cs).reverse
  refine ⟨before, after.reverse, ?_, hb, fun c hc => ha c (List.mem_reverse.mp hc)⟩
  rw [trimBlanks, ← List.reverse_append, ← hafter, List.reverse_reverse]
  exact hbefore

theorem Numeral.solid (h : Numeral written n) : written ≠ [] ∧ ∀ c ∈ written, isBlank c = false := by
  have hdigit : ∀ c : Char, c.isDigit = true → isBlank c = false := fun c hc => by
    have hn : '0'.toNat ≤ c.toNat ∧ c.toNat ≤ '9'.toNat := by
      simpa [Char.isDigit, UInt32.le_iff_toNat_le] using hc
    have h0 : '0'.toNat = 0x30 := rfl
    have h9 : '9'.toNat = 0x39 := rfl
    simp only [isBlank, Bool.or_eq_false_iff, Bool.and_eq_false_iff, decide_eq_false_iff_not,
      beq_eq_false_iff_ne]
    omega
  cases h with
  | bare h => exact ⟨h.1, fun c hc => hdigit c (h.2 c hc)⟩
  | plus h | minus h =>
    refine ⟨List.cons_ne_nil _ _, List.forall_mem_cons.mpr ⟨by decide, fun c hc => ?_⟩⟩
    exact hdigit c (h.2 c hc)

/-- **Integers with blanks around them** are read, and nothing else. -/
theorem integer?_trimBlanks : integer? (trimBlanks cs) = some n ↔ Reads cs n := by
  rw [integer?_eq_some]
  constructor
  · intro h
    obtain ⟨before, after, hcs, hbefore, hafter⟩ := exists_trimBlanks cs
    exact ⟨before, _, after, hcs, hbefore, hafter, h⟩
  · rintro ⟨before, written, after, rfl, hbefore, hafter, hn, hbounds⟩
    rw [trimBlanks_append hbefore hafter hn.solid.1 hn.solid.2]
    exact ⟨hn, hbounds⟩

end Text

/-! ## Contexts that are compared -/

/-- The context has a timestamp. -/
def Context.Timed (c : Context) (t : Int) : Prop :=
  ∃ value, c.attribute? "timestamp" = some value ∧ Text.Reads value.toList t

namespace Arguments

variable {args : Arguments} {position name : String} {c : Context}

theorem number_eq (hc : args.context position = .ok c) {value : String} {n : Int}
    (hvalue : c.attribute? name = some value) (hn : Text.Reads value.toList n) :
    args.number position name = .ok n := by
  have htext : args.text position name = .ok value := by
    simp only [text, hc, hvalue, bind, Except.bind]
  simp only [number, htext, bind, Except.bind, Text.integer?_trimBlanks.mpr hn]

theorem number_fails (hc : args.context position = .ok c)
    (h : ¬∃ value n, c.attribute? name = some value ∧ Text.Reads value.toList n) :
    ∃ text, args.number position name = .error (fault args.predicate text) := by
  cases hvalue : c.attribute? name with
  | none =>
    refine ⟨s!"context `{c.name}` has no attribute `{name}`", ?_⟩
    simp only [number, text, hc, hvalue, bind, Except.bind]
  | some value =>
    have htext : args.text position name = .ok value := by
      simp only [text, hc, hvalue, bind, Except.bind]
    cases hn : Text.integer? (Text.trimBlanks value.toList) with
    | none =>
      refine ⟨s!"attribute `{name}` of `{position}` is not a number: `{value}`", ?_⟩
      simp only [number, htext, bind, Except.bind, hn]
    | some n => exact absurd ⟨value, n, hvalue, Text.integer?_trimBlanks.mp hn⟩ h

end Arguments

/-- A predicate that goes by the timestamps of the first and the second context. -/
def Predicate.ofTimestamps (f : Int → Int → Except Failure Bool) : Predicate := fun args => do
  let first ← args.number "v1" "timestamp"
  let second ← args.number "v2" "timestamp"
  f first second

/-- The crash of a difference that has more than 64 bits. -/
def differenceOverflow : Failure :=
  .crash (.text "attempt to subtract with overflow")

namespace Registry

/-- All variables are bound, and two of them, in the first and the second position, to contexts that are
to be compared. -/
structure Places (params : List (String × String)) (env : Env) (subst : Option Substitution)
    (a b : Context) : Prop where
  bound : ∀ p ∈ params, (env.lookup subst p.2).isSome = true
  first : ∃ var, params.find? (fun p => p.1 = "v1") = some ("v1", var) ∧ env.lookup subst var = some a
  second : ∃ var, params.find? (fun p => p.1 = "v2") = some ("v2", var) ∧ env.lookup subst var = some b

variable {params : List (String × String)} {env : Env} {subst : Option Substitution} {a b : Context}

theorem exists_resolve (name : String) (h : ∀ p ∈ params, (env.lookup subst p.2).isSome = true) :
    ∃ contexts, resolve name env subst params = .ok contexts ∧ ∀ position,
      contexts.find? (fun p => p.1 = position) = (params.find? fun p => p.1 = position).bind fun p =>
        (env.lookup subst p.2).map fun c => (p.1, c) := by
  induction params with
  | nil => exact ⟨[], rfl, fun _ => rfl⟩
  | cons p params ih =>
    rw [List.forall_mem_cons] at h
    obtain ⟨contexts, hresolve, hfind⟩ := ih h.2
    obtain ⟨c, hc⟩ := Option.isSome_iff_exists.mp h.1
    refine ⟨(p.1, c) :: contexts, ?_, fun position => ?_⟩
    · simp only [resolve, hc, hresolve, bind, Except.bind]
      rfl
    · rw [List.find?_cons, List.find?_cons, hfind]
      by_cases hp : p.1 = position <;> simp [hp, hc]

theorem Places.exists_arguments (h : Places params env subst a b) (name : String) :
    ∃ contexts, resolve name env subst params = .ok contexts ∧
      (⟨name, contexts⟩ : Arguments).context "v1" = .ok a ∧
      (⟨name, contexts⟩ : Arguments).context "v2" = .ok b := by
  obtain ⟨contexts, hresolve, hfind⟩ := exists_resolve name h.bound
  obtain ⟨x, hx, ha⟩ := h.first
  obtain ⟨y, hy, hb⟩ := h.second
  refine ⟨contexts, hresolve, ?_, ?_⟩
  · simp only [Arguments.context, hfind, hx, Option.bind_some, ha, Option.map_some]
  · simp only [Arguments.context, hfind, hy, Option.bind_some, hb, Option.map_some]

theorem eval_eq {r : Registry} {name : String} {p : Predicate} {contexts : List (String × Context)}
    (hp : r.find? name = some p) (hresolve : resolve name env subst params = .ok contexts) :
    r.eval ⟨name, params⟩ env subst = p ⟨name, contexts⟩ := by
  simp only [eval, hresolve, hp, bind, Except.bind]

theorem eval_timestamps {r : Registry} {name : String} {f : Int → Int → Except Failure Bool}
    (hp : r.find? name = some (.ofTimestamps f)) (h : Places params env subst a b) {t u : Int}
    (ha : a.Timed t) (hb : b.Timed u) : r.eval ⟨name, params⟩ env subst = f t u := by
  obtain ⟨contexts, hresolve, hfirst, hsecond⟩ := h.exists_arguments name
  obtain ⟨value, hvalue, ht⟩ := ha
  obtain ⟨value', hvalue', hu⟩ := hb
  simp only [eval_eq hp hresolve, Predicate.ofTimestamps, Arguments.number_eq hfirst hvalue ht,
    Arguments.number_eq hsecond hvalue' hu, bind, Except.bind]

theorem eval_untimed {r : Registry} {name : String} {f : Int → Int → Except Failure Bool}
    (hp : r.find? name = some (.ofTimestamps f)) (h : Places params env subst a b)
    (hnone : (¬∃ t, a.Timed t) ∨ ¬∃ u, b.Timed u) :
    ∃ text, r.eval ⟨name, params⟩ env subst = .error (.of (.predicate name text)) := by
  obtain ⟨contexts, hresolve, hfirst, hsecond⟩ := h.exists_arguments name
  rw [eval_eq hp hresolve]
  by_cases ha : ∃ t, a.Timed t
  · obtain ⟨t, value, hvalue, ht⟩ := ha
    have hb := hnone.resolve_left (not_not.mpr ⟨t, value, hvalue, ht⟩)
    obtain ⟨text, he⟩ := Arguments.number_fails hsecond fun ⟨value', u, hvalue', hu⟩ =>
      hb ⟨u, value', hvalue', hu⟩
    refine ⟨text, ?_⟩
    simp only [Predicate.ofTimestamps, Arguments.number_eq hfirst hvalue ht, he, bind, Except.bind]
    rfl
  · obtain ⟨text, he⟩ := Arguments.number_fails hfirst fun ⟨value, t, hvalue, ht⟩ =>
      ha ⟨t, value, hvalue, ht⟩
    refine ⟨text, ?_⟩
    simp only [Predicate.ofTimestamps, he, bind, Except.bind]
    rfl

theorem find?_earlierThan : builtin.find? "earlier_than" =
    some (.ofTimestamps fun t u => .ok (decide (t > u))) := by
  simp only [find?, builtin, register, Map.getElem?_insert]
  rfl

theorem find?_sameTime : builtin.find? "same_time" =
    some (.ofTimestamps fun t u => if Text.isInt64 (t - u) then .ok (decide (0 < t - u ∧ t - u < 100))
      else .error differenceOverflow) := by
  simp only [find?, builtin, register, Map.getElem?_insert, Bool.decide_and]
  rfl

theorem eval_earlierThan (h : Places params env subst a b) {t u : Int} (ha : a.Timed t) (hb : b.Timed u) :
    builtin.eval ⟨"earlier_than", params⟩ env subst = .ok (decide (t > u)) :=
  eval_timestamps find?_earlierThan h ha hb

theorem eval_sameTime (h : Places params env subst a b) {t u : Int} (ha : a.Timed t) (hb : b.Timed u) :
    builtin.eval ⟨"same_time", params⟩ env subst = if -2 ^ 63 ≤ t - u ∧ t - u < 2 ^ 63 then
      .ok (decide (0 < t - u ∧ t - u < 100)) else .error differenceOverflow := by
  rw [eval_timestamps find?_sameTime h ha hb]
  exact if_congr Text.isInt64_iff rfl rfl

theorem exists_timed (h : Places params env subst a b)
    (htrue : builtin.eval ⟨"same_time", params⟩ env subst = .ok true) :
    ∃ t u, a.Timed t ∧ b.Timed u ∧ 0 < t - u ∧ t - u < 100 := by
  by_cases hnone : (¬∃ t, a.Timed t) ∨ ¬∃ u, b.Timed u
  · obtain ⟨text, he⟩ := eval_untimed find?_sameTime h hnone
    rw [he] at htrue
    cases htrue
  · rw [not_or, not_not, not_not] at hnone
    obtain ⟨⟨t, ht⟩, u, hu⟩ := hnone
    rw [eval_sameTime h ht hu] at htrue
    split_ifs at htrue
    exact ⟨t, u, ht, hu, of_decide_eq_true (Except.ok.inj htrue)⟩

/-- **The timestamps of two contexts** are compared as integers. If both can be read, the order is
answered, and so is whether the first follows the second by less than a hundred, unless their difference
has more than 64 bits, which crashes. Contexts of which the latter is true are in order, and not the other
way round. A timestamp that is missing or cannot be read is an error of the predicate. -/
theorem timestamps_compared (h : Places params env subst a b) :
    (∀ t u, a.Timed t → b.Timed u →
      builtin.eval ⟨"earlier_than", params⟩ env subst = .ok (decide (t > u)) ∧
      builtin.eval ⟨"same_time", params⟩ env subst = if -2 ^ 63 ≤ t - u ∧ t - u < 2 ^ 63 then
        .ok (decide (0 < t - u ∧ t - u < 100)) else .error differenceOverflow) ∧
    (builtin.eval ⟨"same_time", params⟩ env subst = .ok true →
      builtin.eval ⟨"earlier_than", params⟩ env subst = .ok true ∧
      ∀ params' env' subst', Places params' env' subst' b a →
        builtin.eval ⟨"same_time", params'⟩ env' subst' = .ok false) ∧
    ((¬∃ t, a.Timed t) ∨ (¬∃ u, b.Timed u) → ∀ name ∈ ["earlier_than", "same_time"],
      ∃ text, builtin.eval ⟨name, params⟩ env subst = .error (.of (.predicate name text))) := by
  refine ⟨fun t u ha hb => ⟨eval_earlierThan h ha hb, eval_sameTime h ha hb⟩, fun htrue => ?_, fun hnone => ?_⟩
  · obtain ⟨t, u, ha, hb, hpos, hlt⟩ := exists_timed h htrue
    have horder : t > u := Int.lt_of_sub_pos hpos
    refine ⟨(eval_earlierThan h ha hb).trans (by rw [decide_eq_true horder]), fun params' env' subst' h' => ?_⟩
    -- The difference the other way round has 64 bits too, and is negative.
    rw [eval_sameTime h' hb ha, if_pos (by omega), decide_eq_false (by omega)]
  · simp only [List.forall_mem_cons]
    exact ⟨eval_untimed find?_earlierThan h hnone, eval_untimed find?_sameTime h hnone, nofun⟩

/-! ## Timestamps that are far apart -/

namespace Sample

/-- Two variables, compared by a predicate. -/
def compared : List (String × String) :=
  [("v1", "x"), ("v2", "y")]

/-- The last timestamp of all, with a blank behind it. -/
def last : Context :=
  ⟨0, ExtTreeMap.ofList [("timestamp", "9223372036854775807 ")]⟩

/-- A timestamp before the epoch. -/
def early : Context :=
  ⟨1, ExtTreeMap.ofList [("timestamp", "-1")]⟩

def bindings : Env :=
  ExtTreeMap.ofList [("x", last), ("y", early)]

theorem places : Places compared bindings none last early where
  bound := by decide
  first := ⟨"x", rfl, rfl⟩
  second := ⟨"y", rfl, rfl⟩

theorem timed_last : last.Timed 9223372036854775807 :=
  ⟨"9223372036854775807 ", rfl, Text.integer?_trimBlanks.mp (by decide)⟩

theorem timed_early : early.Timed (-1) :=
  ⟨"-1", rfl, Text.integer?_trimBlanks.mp (by decide)⟩

end Sample

theorem timestamps_compared_sample :
    Places Sample.compared Sample.bindings none Sample.last Sample.early ∧
      builtin.eval ⟨"earlier_than", Sample.compared⟩ Sample.bindings none = .ok true ∧
      builtin.eval ⟨"same_time", Sample.compared⟩ Sample.bindings none = .error differenceOverflow :=
  ⟨Sample.places, (timestamps_compared Sample.places).1 _ _ Sample.timed_last Sample.timed_early⟩

/-- **Two timestamps that are too far apart** to be compared, though both have 64 bits. -/
theorem sameTime_overflows :
    ¬∀ params env subst a b, Places params env subst a b → ∀ t u, a.Timed t → b.Timed u →
      builtin.eval ⟨"same_time", params⟩ env subst = .ok (decide (0 < t - u ∧ t - u < 100)) := by
  intro h
  have hok := h _ _ _ _ _ Sample.places _ _ Sample.timed_last Sample.timed_early
  rw [eval_sameTime Sample.places Sample.timed_last Sample.timed_early, if_neg (by decide)] at hok
  cases hok

end Registry

end RuleMonitor
