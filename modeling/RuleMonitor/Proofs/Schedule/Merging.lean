import RuleMonitor.Proofs.Facts.Cancelling
import RuleMonitor.Proofs.Rules.Reaching
import RuleMonitor.Proofs.Rules.Recovering
import RuleMonitor.Schedule.Scheduler

/-!
# Merging

A scheduler, too, is known up to the accounts of its checker. The search for a waiting change that a
change cancels comes to an end, unless more than a predicate fails, and what it finds is an addition
that the change takes back, or an exchange of contexts that the rule cannot observe. Merging the two
leaves a rule whose pending batch leads where the batch and the change led.

* `Scheduler.Does`, `Scheduler.Falls`: a part of the work that succeeds, or fails with more than a
  predicate, up to the accounts.
* `Checker.Serves`: a rule, and where its batch leads.
* `Scheduler.Cancels`: what a merge is; **`Scheduler.findMerge_does`**: it is all that is found.
* **`Scheduler.merge_does`**: what a merge leaves.
-/

namespace RuleMonitor

open Std (ExtTreeMap ExtTreeSet)

namespace Scheduler

/-! ## Accounts -/

/-- The scheduler without the accounts of its checker. -/
def bare (s : Scheduler) : Scheduler :=
  { s with checker := s.checker.bare }

/-- A part of the work succeeds with a value and makes one scheduler of another, up to the accounts. -/
def Does {α : Type} (x : Routine Scheduler α) (s : Scheduler) (a : α) (s' : Scheduler) : Prop :=
  ∀ t : Scheduler, t.bare = s.bare → ∃ t', x t = .ok a t' ∧ t'.bare = s'.bare

variable {α β : Type} {s s₁ s₂ t : Scheduler} {a : α} {b : β}

theorem checker_eq_of_bare (h : t.bare = s.bare) : t.checker.bare = s.checker.bare :=
  congrArg checker h

theorem pending_eq_of_bare (h : t.bare = s.bare) : t.pending = s.pending := by
  simpa [bare] using congrArg pending h

theorem next_eq_of_bare (h : t.bare = s.bare) : t.next = s.next := by
  simpa [bare] using congrArg next h

theorem mode_eq_of_bare (h : t.bare = s.bare) : t.mode = s.mode := by
  simpa [bare] using congrArg mode h

theorem critical_eq_of_bare (h : t.bare = s.bare) : t.critical = s.critical := by
  simpa [bare] using congrArg critical h

theorem bare_setChecker (h : t.bare = s.bare) {c d : Checker} (hc : d.bare = c.bare) :
    ({ t with checker := d } : Scheduler).bare = ({ s with checker := c } : Scheduler).bare := by
  change ({ t.bare with checker := d.bare } : Scheduler) = { s.bare with checker := c.bare }
  rw [h, hc]

theorem bare_setPending (h : t.bare = s.bare) (pending : ExtTreeMap String (List Change)) :
    ({ t with pending } : Scheduler).bare = ({ s with pending } : Scheduler).bare :=
  congrArg (fun u : Scheduler => { u with pending }) h

theorem bare_setNext (h : t.bare = s.bare) (next : ExtTreeMap String (List Change)) :
    ({ t with next } : Scheduler).bare = ({ s with next } : Scheduler).bare :=
  congrArg (fun u : Scheduler => { u with next }) h

theorem pendingOf_eq_of_bare (h : t.bare = s.bare) (rule : String) :
    t.pendingOf rule = s.pendingOf rule := by
  unfold pendingOf
  rw [pending_eq_of_bare h]

theorem does_pure (a : α) (s : Scheduler) : Does (pure a) s a s :=
  fun t ht => ⟨t, rfl, ht⟩

theorem Does.bind {x : Routine Scheduler α} {f : α → Routine Scheduler β} (hx : Does x s a s₁)
    (hf : Does (f a) s₁ b s₂) : Does (x >>= f) s b s₂ := fun t ht => by
  obtain ⟨t₁, h₁, ht₁⟩ := hx t ht
  obtain ⟨t₂, h₂, ht₂⟩ := hf t₁ ht₁
  exact ⟨t₂, by rw [Routine.bind_ok h₁, h₂], ht₂⟩

theorem does_get {f : Scheduler → Routine Scheduler β}
    (hf : ∀ t : Scheduler, t.bare = s.bare → Does (f t) s b s₂) : Does (get >>= f) s b s₂ :=
  fun t ht => hf t ht t ht

theorem does_ofExcept {x : Except Failure α} (hx : x = .ok a) (s : Scheduler) :
    Does (Routine.ofExcept x) s a s :=
  fun t ht => ⟨t, Routine.ofExcept_ok hx t, ht⟩

theorem does_onChecker {x : Routine Checker α} {c : Checker} (hx : Checker.Does x s.checker a c) :
    Does (onChecker x) s a { s with checker := c } := fun t ht => by
  obtain ⟨d, hd, hb⟩ := hx t.checker (checker_eq_of_bare ht)
  exact ⟨{ t with checker := d }, Routine.onPart_ok hd, bare_setChecker ht hb⟩

/-- A part of the work fails with a failure of some kind that is more than a predicate that failed. -/
abbrev Falls {α : Type} (K : Failure → Prop) (x : Routine Scheduler α) (s : Scheduler) : Prop :=
  Routine.Falls bare (Failure.Serious K) x s

theorem Does.bind_falls {x : Routine Scheduler α} {f : α → Routine Scheduler β} {K : Failure → Prop}
    (hx : Does x s a s₁) (hf : Falls K (f a) s₁) : Falls K (x >>= f) s := fun t ht => by
  obtain ⟨t₁, h₁, ht₁⟩ := hx t ht
  obtain ⟨e, t₂, h₂, he⟩ := hf t₁ ht₁
  exact ⟨e, t₂, by rw [Routine.bind_ok h₁, h₂], he⟩

theorem falls_onChecker {x : Routine Checker α} {K : Failure → Prop} (hx : Checker.Falls K x s.checker) :
    Falls K (onChecker x) s := fun t ht => by
  obtain ⟨e, d, hd, he⟩ := hx t.checker (checker_eq_of_bare ht)
  exact ⟨e, { t with checker := d }, Routine.onPart_error hd, he⟩

theorem does_append (rule : String) (change : Change) (s : Scheduler) :
    Does (append rule change) s ⟨⟩
      { s with pending := s.pending.insert rule (s.pendingOf rule ++ [change]) } := fun t ht => by
  rw [← pendingOf_eq_of_bare ht, ← pending_eq_of_bare ht]
  exact ⟨_, rfl, bare_setPending ht _⟩

theorem does_startNext (rule : String) (change : Change) (s : Scheduler) :
    Does (startNext rule change) s ⟨⟩
      { s with next := s.next.insert rule (s.next.getD rule [] ++ [change]) } := fun t ht => by
  rw [← next_eq_of_bare ht]
  exact ⟨_, rfl, bare_setNext ht _⟩

theorem does_withdraw (rule : String) (position : Nat) (change : Change) (s : Scheduler) :
    Does (withdraw rule position change) s ⟨⟩
      { s with pending := s.pending.insert rule ((s.pendingOf rule).eraseIdx position) } := by
  refine does_get fun t ht => ?_
  let s' : Scheduler :=
    { s with pending := s.pending.insert rule ((s.pendingOf rule).eraseIdx position) }
  let t' : Scheduler :=
    { t with pending := t.pending.insert rule ((t.pendingOf rule).eraseIdx position) }
  have hset : Does (set t' : Routine Scheduler PUnit) s ⟨⟩ s' := fun u hu => by
    refine ⟨t', rfl, ?_⟩
    unfold t'
    rw [pendingOf_eq_of_bare ht, pending_eq_of_bare ht]
    exact bare_setPending ht _
  refine hset.bind ?_
  split
  · exact does_onChecker (s := s') (Checker.does_note _ _ _)
  · exact does_pure _ _

/-! ## What cancels -/

/-- A change and a waiting change cancel: the rule is not affected if neither of them is made, or if a
replacement is made that it cannot observe. -/
def Cancels (c : Checker) (r : Rule) (change other : Change) : Merge → Prop
  | .annihilate _ =>
    other.kind = .addition ∧ change.kind = .deletion ∧ other.pattern = change.pattern ∧
      other.id = change.id
  | .swap _ rep => ∃ p del add, Pools.IsExchange change other p del add ∧
      r.facts.pools.live? p del.id = some del ∧ c.Suits r p del add rep

/-- The waiting change that a merge is about, between those that stay. -/
def Finds (c : Checker) (r : Rule) (pending : List Change) (change : Change) (m : Merge) : Prop :=
  ∃ before other after, pending = before ++ other :: after ∧ m.position = before.length ∧
    (∀ x ∈ before ++ after, x.id ≠ other.id ∧ x.id ≠ change.id) ∧ Cancels c r change other m

theorem untouched {before after : List Change} {other : Change} {first second : Nat}
    (h : touchedElsewhere (before ++ other :: after) before.length first second = false) :
    ∀ x ∈ before ++ after, x.id ≠ first ∧ x.id ≠ second := by
  unfold touchedElsewhere at h
  rw [List.any_eq_false] at h
  intro x hx
  obtain ⟨i, hi, hne⟩ : ∃ i, (before ++ other :: after)[i]? = some x ∧ i ≠ before.length := by
    rcases List.mem_append.mp hx with hx | hx
    · obtain ⟨i, hlt, hi⟩ := List.mem_iff_getElem.mp hx
      refine ⟨i, ?_, Nat.ne_of_lt hlt⟩
      rw [List.getElem?_append_left hlt, List.getElem?_eq_getElem hlt, hi]
    · obtain ⟨i, hlt, hi⟩ := List.mem_iff_getElem.mp hx
      refine ⟨before.length + (i + 1), ?_, by omega⟩
      rw [List.getElem?_append_right (Nat.le_add_right _ _), Nat.add_sub_cancel_left,
        List.getElem?_cons_succ, List.getElem?_eq_getElem hlt, hi]
  have hmem := h (x, i) (List.mk_mem_zipIdx_iff_getElem?.mpr hi)
  simpa [hne] using hmem

/-- An addition and a deletion, in either order, amount to an exchange. -/
theorem isExchange_of_opposite {change other : Change} {del : Context}
    (hp : other.pattern = change.pattern) (ho : other.kind.isOpposite change.kind = true)
    (hne : other.kind = .addition → other.id ≠ change.id) :
    let pair := if change.kind = .deletion then (change, other) else (other, change)
    del.id = pair.1.id →
    Pools.IsExchange change other pair.1.pattern del pair.2.context := by
  intro pair hdel
  cases hk : change.kind with
  | deletion =>
    have hother : other.kind = .addition := by
      rw [hk] at ho
      cases hok : other.kind with
      | addition => rfl
      | deletion | update =>
        rw [hok] at ho
        cases ho
    have hpair : pair = (change, other) := if_pos hk
    rw [hpair] at hdel ⊢
    exact ⟨rfl, hp, .inl ⟨hk, hdel.symm, hother, rfl, fun e => hne hother (e.symm.trans hdel)⟩⟩
  | addition =>
    have hother : other.kind = .deletion := by
      rw [hk] at ho
      cases hok : other.kind with
      | deletion => rfl
      | addition | update =>
        rw [hok] at ho
        cases ho
    have hpair : pair = (other, change) := if_neg (by rw [hk]; decide)
    rw [hpair] at hdel ⊢
    exact ⟨hp.symm, rfl, .inr ⟨hk, rfl, hother, hdel.symm⟩⟩
  | update =>
    rw [hk] at ho
    cases hok : other.kind <;> rw [hok] at ho <;> cases ho

variable {c : Checker} {r : Rule} {K : Failure → Prop} {change : Change}

section Search

variable (hK : Failure.CrashClosed K) (hr : c.rules[r.id]? = some r)
  (hs : r.Sound c.engine) (hf : c.registry.FailsIn K r.sentence.formula)

include hK hr hs hf

theorem probePair_does (change other : Change) :
    (∃ o, Checker.Does (probePair r change other) c o c ∧ ∀ rep, o = some rep →
      let pair := if change.kind = .deletion then (change, other) else (other, change)
      ∃ del, r.facts.pools.live? pair.1.pattern pair.1.id = some del ∧
        c.Suits r pair.1.pattern del pair.2.context rep) ∨
    Checker.Falls K (probePair r change other) c := by
  unfold probePair
  generalize (if change.kind = .deletion then (change, other) else (other, change)) = pair
  obtain ⟨del, add⟩ := pair
  dsimp only
  cases hdel : r.facts.get? del.pattern del.id with
  | none => exact .inl ⟨none, Checker.does_pure none c, nofun⟩
  | some context =>
    have hlive : r.facts.pools.live? del.pattern del.id = some context := hdel
    have hid : context.id = del.id := hs.keyed _ _ _ hlive
    have hprobe : ∀ d : Checker, d.bare = c.bare →
        d.probe r.id del.pattern context add.context = c.probe r.id del.pattern context add.context := by
      intro d hd
      unfold Checker.probe Checker.withSetting Checker.rule
      rw [Checker.rules_eq_of_bare hd, Checker.engine_eq_of_bare hd]
    rcases Checker.probe_ends _ hK hr hs hf (hid ▸ hlive) with ⟨o, ho, hsuits⟩ | ⟨e, he, ho⟩
    · refine .inl ⟨o, (Checker.does_enter _ c).bind (Checker.does_get fun d hd => ?_),
        fun rep h => ⟨context, hlive, hsuits rep h⟩⟩
      rw [hprobe d hd, ho]
      exact Checker.does_pure o c
    · cases hp : e.isPredicate with
      | true =>
        refine .inl ⟨none, (Checker.does_enter _ c).bind (Checker.does_get fun d hd => ?_), nofun⟩
        rw [hprobe d hd, ho]
        cases e with
        | crash e => cases hp
        | error e =>
          have hp' : e.isPredicate = true := hp
          simp only [hp', if_true]
          exact (Checker.does_note _ _ c).bind (Checker.does_pure none c)
      | false =>
        refine .inr ((Checker.does_enter _ c).bind_falls (Routine.falls_get fun d hd => ?_))
        rw [hprobe d hd, ho]
        have hserious : Failure.Serious K e := ⟨he, hp⟩
        cases e with
        | crash e => exact Routine.falls_throw hserious c
        | error e =>
          have hp' : e.isPredicate = false := hp
          simp only [hp', Bool.false_eq_true, if_false]
          exact Routine.falls_throw hserious c

/-- A waiting change is tried, and if it is merged with, the two cancel. -/
theorem tryMerge_does (s : Scheduler) (before after : List Change) (change other : Change) :
    (∃ o, Checker.Does
        (tryMerge s r (before ++ other :: after) change before.length other) c o c ∧
      ∀ m, o = some m → Finds c r (before ++ other :: after) change m) ∨
    Checker.Falls K (tryMerge s r (before ++ other :: after) change before.length other) c := by
  unfold tryMerge
  by_cases hmay : s.mayCancel (before ++ other :: after) change before.length other = true
  · rw [hmay, if_neg (by decide)]
    have hmay' := hmay
    unfold mayCancel at hmay'
    simp only [Bool.and_eq_true, decide_eq_true_eq, Bool.not_eq_true'] at hmay'
    obtain ⟨⟨⟨⟨hpattern, hopposite⟩, -⟩, -⟩, htouched⟩ := hmay'
    have hu := untouched htouched
    by_cases hsame : (decide (other.id = change.id) && decide (other.kind = .addition)) = true
    · rw [if_pos hsame]
      rw [Bool.and_eq_true, decide_eq_true_eq, decide_eq_true_eq] at hsame
      refine .inl ⟨_, Checker.does_pure _ c, fun m h => ?_⟩
      cases h
      refine ⟨before, other, after, rfl, rfl, hu, hsame.2, ?_, hpattern, hsame.1⟩
      rw [hsame.2] at hopposite
      cases hk : change.kind with
      | deletion => rfl
      | addition | update =>
        rw [hk] at hopposite
        cases hopposite
    · rw [if_neg hsame]
      by_cases hskip : (decide (other.id ≠ change.id) && (r.sentence.effect change).isMinus) = true
      · rw [if_pos hskip]
        exact .inl ⟨none, Checker.does_pure none c, nofun⟩
      · rw [if_neg hskip]
        rcases probePair_does hK hr hs hf change other with ⟨o, ho, hpair⟩ | hfalls
        · refine .inl ⟨o.map (.swap before.length), ho.bind (Checker.does_pure _ c), fun m h => ?_⟩
          obtain ⟨rep, rfl, rfl⟩ := Option.map_eq_some_iff.mp h
          obtain ⟨del, hlive, hsuits⟩ := hpair rep rfl
          have hid := hs.keyed _ _ _ hlive
          refine ⟨before, other, after, rfl, rfl, hu, _, del, _,
            isExchange_of_opposite hpattern hopposite (fun ho e => hsame ?_) hid, hid ▸ hlive, hsuits⟩
          rw [e, ho]
          exact (Bool.and_eq_true _ _).mpr ⟨decide_eq_true rfl, decide_eq_true rfl⟩
        · exact .inr (hfalls.bind _)
  · rw [Bool.not_eq_true] at hmay
    rw [hmay, if_pos (by decide)]
    exact .inl ⟨none, Checker.does_pure none c, nofun⟩

/-- **The search for a waiting change** comes to an end, and what it finds cancels. -/
theorem findMergeFrom_does (s : Scheduler) (change : Change) : ∀ (after before : List Change),
    (∃ o, Checker.Does
        (findMergeFrom s r (before ++ after) change before.length after) c o c ∧
      ∀ m, o = some m → Finds c r (before ++ after) change m) ∨
    Checker.Falls K (findMergeFrom s r (before ++ after) change before.length after) c := by
  intro after
  induction after with
  | nil => exact fun before => .inl ⟨none, Checker.does_pure none c, nofun⟩
  | cons other after ih =>
    intro before
    rcases tryMerge_does hK hr hs hf s before after change other with ⟨o, ho, hfinds⟩ | hfalls
    · cases o with
      | some m => exact .inl ⟨some m, ho.bind (Checker.does_pure _ c), hfinds⟩
      | none =>
        have hrest := ih (before ++ [other])
        rw [List.append_assoc, List.length_append] at hrest
        rcases hrest with ⟨o', ho', hfinds'⟩ | hfalls
        · exact .inl ⟨o', ho.bind ho', hfinds'⟩
        · exact .inr (ho.bind_falls hfalls)
    · exact .inr (hfalls.bind _)

end Search

theorem findMergeFrom_congr {s t : Scheduler} (h : t.critical = s.critical) (r : Rule)
    (pending : List Change) (change : Change) : ∀ (after : List Change) (position : Nat),
    findMergeFrom t r pending change position after = findMergeFrom s r pending change position after := by
  have hmay : ∀ position other,
      t.mayCancel pending change position other = s.mayCancel pending change position other := by
    intro position other
    unfold mayCancel
    rw [h]
  intro after
  induction after with
  | nil => exact fun _ => rfl
  | cons other after ih =>
    intro position
    unfold findMergeFrom tryMerge
    rw [hmay, ih]

theorem does_cancel {s : Scheduler} {id : String} {before after : List Change} {other : Change}
    {position : Nat} (hpending : s.pendingOf id = before ++ other :: after)
    (hposition : position = before.length) :
    Does (do
      withdraw id position change
      onChecker (Checker.count "merged" 1)
      return true) s true { s with pending := s.pending.insert id (before ++ after) } := by
  have hwithdraw := does_withdraw id position change s
  rw [hpending, hposition, Lists.eraseIdx_middle, ← hposition] at hwithdraw
  exact hwithdraw.bind ((does_onChecker (Checker.does_count _ _ _)).bind (does_pure true _))

section Merging

variable {s : Scheduler} {Q : Pools} (hK : Failure.CrashClosed K)
  (hr : s.checker.rules[r.id]? = some r) (hten : r.Tenable s.checker.engine K)
  (hf : s.checker.registry.FailsIn K r.sentence.formula)

include hK hr hten hf

theorem findMerge_does (change : Change) :
    (∃ o, Does (findMerge r.id change) s o s ∧ ∀ m, o = some m → r.Sound s.checker.engine ∧
      Finds s.checker r (s.pendingOf r.id) change m) ∨
    Falls K (findMerge r.id change) s := by
  have hrule : ∀ t : Scheduler, t.bare = s.bare → t.checker.rule r.id = .ok r := by
    intro t ht
    unfold Checker.rule
    rw [Checker.rules_eq_of_bare (checker_eq_of_bare ht), hr]
  cases hdirty : r.dirty with
  | true =>
    refine .inl ⟨none, does_get fun t ht => (does_ofExcept (hrule t ht) s).bind ?_, nofun⟩
    rw [hdirty, if_pos rfl]
    exact does_pure none s
  | false =>
    have hs : r.Sound s.checker.engine := hten.resolve_right fun h =>
      absurd (hdirty.symm.trans h.1.dirty) Bool.false_ne_true
    have hsame : ∀ t : Scheduler, t.bare = s.bare → findMergeFrom t r (t.pendingOf r.id) change 0
        (t.pendingOf r.id) = findMergeFrom s r (s.pendingOf r.id) change 0 (s.pendingOf r.id) := by
      intro t ht
      rw [findMergeFrom_congr (critical_eq_of_bare ht), pendingOf_eq_of_bare ht]
    rcases findMergeFrom_does hK hr hs hf s change (s.pendingOf r.id) [] with ⟨o, ho, hfinds⟩ | hfalls
    · refine .inl ⟨o, does_get fun t ht => (does_ofExcept (hrule t ht) s).bind ?_,
        fun m h => ⟨hs, hfinds m h⟩⟩
      rw [hdirty, if_neg Bool.false_ne_true]
      dsimp only
      rw [hsame t ht]
      exact does_onChecker ho
    · refine .inr (Routine.falls_get fun t ht => (does_ofExcept (hrule t ht) s).bind_falls ?_)
      rw [hdirty, if_neg Bool.false_ne_true]
      dsimp only
      rw [hsame t ht]
      exact falls_onChecker hfalls

/-- **A merge**, or none: what it leaves leads where the pending batch and the change lead. -/
theorem merge_does (hQ : r.facts.pools.after? (s.pendingOf r.id) = some Q)
    (hv : change.isValid Q = true) :
    (Does (merge r.id change) s false s ∨
      ∃ before other after r' Q', s.pendingOf r.id = before ++ other :: after ∧
        (∀ x ∈ before ++ after, x.id ≠ other.id) ∧
        Does (merge r.id change) s true { s with
          checker := { s.checker with rules := s.checker.rules.insert r.id r' }
          pending := s.pending.insert r.id (before ++ after) } ∧
        r'.Sound s.checker.engine ∧ r'.sentence = r.sentence ∧
        r'.facts.pools.after? (before ++ after) = some Q' ∧ Q'.Alike (Q.step change)) ∨
    Falls K (merge r.id change) s := by
  unfold merge
  by_cases hk : change.kind = .update
  · rw [if_pos hk]
    exact .inl (.inl (does_pure false s))
  rw [if_neg hk]
  rcases findMerge_does hK hr hten hf change with ⟨o, ho, hfinds⟩ | hfalls
  swap
  · exact .inr (hfalls.bind _)
  refine .inl ?_
  cases o with
  | none => exact .inl (ho.bind (does_pure false s))
  | some m =>
    obtain ⟨hs, before, other, after, hpending, hposition, hu, hcancels⟩ := hfinds m rfl
    rw [hpending] at hQ
    cases m with
    | annihilate i =>
      obtain ⟨hok, hck, hp, hid⟩ := hcancels
      obtain ⟨Q', hQ', halike⟩ := Pools.after?_annihilate hQ (fun x hx => (hu x hx).1) hok hck hp hid
      have hsame : s.checker.rules.insert r.id r = s.checker.rules := Map.insert_eq_self hr
      refine .inr ⟨before, other, after, r, Q', hpending, fun x hx => (hu x hx).1, ?_, hs, rfl, hQ',
        halike⟩
      rw [hsame]
      exact ho.bind (does_cancel hpending hposition)
    | swap i rep =>
      obtain ⟨p, del, add, hx, hlive, hsuits⟩ := hcancels
      have hids : ∀ x ∈ before ++ after, x.id ∉ [del.id, add.id] := by
        intro x hxm hid
        rcases hx.eq_of_mem_ids hid with e | e
        · exact (hu x hxm).1 e
        · exact (hu x hxm).2 e
      have hexch := hx.exchangeable hQ hv hids hlive
      obtain ⟨Q', hQ', halike⟩ := Pools.after?_swap hQ hx hids
      obtain ⟨r', hdoes, hs', hsent, hpools, -⟩ := Checker.replace_does hr hs hexch hsuits
      refine .inr ⟨before, other, after, r', Q', hpending, fun x hx => (hu x hx).1, ?_, hs', hsent,
        hpools ▸ hQ', halike⟩
      exact ho.bind ((does_onChecker hdoes).bind (does_cancel hpending hposition))

end Merging

end Scheduler

end RuleMonitor
