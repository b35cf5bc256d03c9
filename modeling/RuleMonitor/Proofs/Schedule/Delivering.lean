import RuleMonitor.Proofs.Rules.Lasting
import RuleMonitor.Proofs.Schedule.Streams

/-!
# Delivering changes

A change that a rule takes in is appended to the pending batch, kept for the next one, or cancelled
together with a waiting change. Whatever the rules and the changes are, nothing else happens to what
waits: this is read off a run that succeeds, and no change has to be valid.

* `Scheduler.Board`: what a scheduler has besides its rules.
* `Scheduler.take_ok`: one rule takes a change; **`Scheduler.takes_ok`**: many rules.
* `Event.perform_eq_ok`: an event is taken in, and what is due is submitted.
* `Event.Moves`: what an event does to what waits for a rule.
-/

namespace RuleMonitor

open Std (ExtTreeMap ExtTreeSet)

open Routine

namespace Scheduler

/-! ## Boards -/

/-- What a scheduler has besides its rules. -/
structure Board where
  mode : SchedulingMode
  critical : ExtTreeSet Nat
  pending : ExtTreeMap String (List Change)
  next : ExtTreeMap String (List Change)
  outline : Checker.Outline

namespace Board

/-- The pending batch of a rule. -/
def pendingOf (b : Board) (rule : String) : List Change :=
  b.pending.getD rule []

/-- The board with another pending batch of a rule. -/
def setPending (b : Board) (rule : String) (batch : List Change) : Board :=
  { b with pending := b.pending.insert rule batch }

/-- The board with another next batch of a rule. -/
def setNext (b : Board) (rule : String) (batch : List Change) : Board :=
  { b with next := b.next.insert rule batch }

/-- The board after one more merge was counted. -/
def countMerge (b : Board) : Board :=
  { b with outline := { b.outline with merged := b.outline.merged + 1 } }

theorem pendingOf_setPending (b : Board) (rule id : String) (batch : List Change) :
    (b.setPending rule batch).pendingOf id = if rule = id then batch else b.pendingOf id := by
  unfold setPending pendingOf
  rw [ExtTreeMap.getD_eq_getD_getElem?, Map.getElem?_insert, ExtTreeMap.getD_eq_getD_getElem?]
  split_ifs <;> rfl

theorem getElem?_setNext (b : Board) (rule id : String) (batch : List Change) :
    (b.setNext rule batch).next[id]? = if rule = id then some batch else b.next[id]? :=
  Map.getElem?_insert _ _ _ _

end Board

/-- The board of a scheduler. -/
def board (σ : Scheduler) : Board where
  mode := σ.mode
  critical := σ.critical
  pending := σ.pending
  next := σ.next
  outline := σ.checker.outline

variable {α : Type} {σ σ' : Scheduler} {rule : String} {change : Change}

theorem keeps_onChecker {x : Routine Checker α} (hx : Checker.Lasts x) :
    Keeps (fun _ => True) board (onChecker x) := by
  refine keeps_onPart (fun c σ hc => ?_) hx
  unfold board
  rw [hc]

theorem keeps_submit (rule : String) (batch : List Change) :
    Keeps (fun _ => True) board (submit rule batch) :=
  keeps_onChecker <|
    (Checker.lasts_count (by decide) _).bind fun _ => Checker.lasts_checkBatch rule batch

theorem submit_names {batch : List Change} {report : Report}
    (h : submit rule batch σ = .ok report σ') :
    ∃ s, σ.board.outline.sentence? rule = some s ∧ report.rule = s.rule := by
  unfold submit onChecker at h
  obtain ⟨c, hc, -⟩ := exists_of_onPart h
  obtain ⟨_, c₁, hcount, hcheck⟩ := bind_eq_ok.mp hc
  have houtline : c₁.outline = σ.checker.outline :=
    (Checker.lasts_count (by decide : "batches" ≠ "merged") 1).ok hcount
  obtain ⟨s, hs, hreport⟩ := Checker.checkBatch_ok hcheck
  exact ⟨s, (congrFun (congrArg Checker.Outline.sentence? houtline) rule).symm.trans hs, hreport⟩

theorem keeps_submitAll (due : List (String × List Change)) :
    Keeps (fun _ => True) board (submitAll due) := by
  induction due with
  | nil => exact keeps_pure _
  | cons b due ih =>
    exact Keeps.ite ih ((keeps_submit _ _).bind fun _ => ih.bind fun _ => keeps_pure _)

/-! ## Searching -/

theorem lasts_probePair (r : Rule) (change other : Change) :
    Checker.Lasts (probePair r change other) := by
  unfold probePair
  generalize (if change.kind = .deletion then (change, other) else (other, change)) = pair
  obtain ⟨del, add⟩ := pair
  dsimp only
  split
  · exact keeps_pure _
  · refine (Checker.lasts_enter _).bind fun _ => keeps_get.bind fun _ => ?_
    split
    · exact keeps_pure _
    · exact Keeps.ite ((Checker.lasts_note _ _).bind fun _ => keeps_pure _) (keeps_throw trivial)
    · exact keeps_throw trivial

theorem lasts_tryMerge (s : Scheduler) (r : Rule) (pending : List Change) (change : Change)
    (position : Nat) (other : Change) :
    Checker.Lasts (tryMerge s r pending change position other) :=
  (keeps_pure _).ite <| (keeps_pure _).ite <| (keeps_pure _).ite <|
    (lasts_probePair r change other).bind fun _ => keeps_pure _

theorem lasts_findMergeFrom (s : Scheduler) (r : Rule) (pending : List Change) (change : Change) :
    ∀ (position : Nat) (rest : List Change),
      Checker.Lasts (findMergeFrom s r pending change position rest) := by
  intro position rest
  induction rest generalizing position with
  | nil => exact keeps_pure _
  | cons other rest ih =>
    refine (lasts_tryMerge s r pending change position other).bind fun found => ?_
    cases found with
    | some merge => exact keeps_pure _
    | none => exact ih _

/-- Two changes on one pattern undo each other, and neither context is critical. -/
structure Cancelling (critical : ExtTreeSet Nat) (change other : Change) : Prop where
  pattern : other.pattern = change.pattern
  opposite : other.kind.isOpposite change.kind = true
  other : critical.contains other.id = false
  change : critical.contains change.id = false

theorem cancelling_of_mayCancel {s : Scheduler} {pending : List Change} {position : Nat}
    {other : Change} (h : s.mayCancel pending change position other = true) :
    Cancelling s.critical change other := by
  unfold mayCancel at h
  simp only [Bool.and_eq_true, decide_eq_true_eq, Bool.not_eq_true'] at h
  obtain ⟨⟨⟨⟨hpattern, hopposite⟩, hother⟩, hchange⟩, -⟩ := h
  exact ⟨hpattern, hopposite, hother, hchange⟩

theorem tryMerge_ok {s : Scheduler} {r : Rule} {pending : List Change} {position : Nat}
    {other : Change} {m : Merge} {c c' : Checker}
    (h : tryMerge s r pending change position other c = .ok (some m) c') :
    m.position = position ∧ Cancelling s.critical change other := by
  unfold tryMerge at h
  by_cases hmay : s.mayCancel pending change position other = true
  · refine ⟨?_, cancelling_of_mayCancel hmay⟩
    rw [hmay, if_neg (by decide)] at h
    split_ifs at h
    · cases h
      rfl
    · cases h
    · obtain ⟨found, c₁, -, h⟩ := bind_eq_ok.mp h
      obtain ⟨hm, -⟩ := EStateM.Result.ok.inj h
      obtain ⟨r', -, rfl⟩ := Option.map_eq_some_iff.mp hm
      rfl
  · rw [Bool.not_eq_true] at hmay
    rw [hmay, if_pos (by decide)] at h
    cases h

theorem findMergeFrom_ok {s : Scheduler} {r : Rule} {pending : List Change} {m : Merge}
    {c' : Checker} : ∀ {rest : List Change} {position : Nat} {c : Checker},
    findMergeFrom s r pending change position rest c = .ok (some m) c' →
    ∃ i other, m.position = position + i ∧ rest[i]? = some other ∧
      Cancelling s.critical change other := by
  intro rest
  induction rest with
  | nil =>
    intro position c h
    cases h
  | cons other rest ih =>
    intro position c h
    unfold findMergeFrom at h
    obtain ⟨found, c₁, h₁, h⟩ := bind_eq_ok.mp h
    cases found with
    | some merge =>
      cases h
      obtain ⟨hm, hc⟩ := tryMerge_ok h₁
      exact ⟨0, other, hm, rfl, hc⟩
    | none =>
      obtain ⟨i, other', hm, hi, hc⟩ := ih h
      exact ⟨i + 1, other', by omega, hi, hc⟩

theorem findMerge_ok {found : Option Merge} (h : findMerge rule change σ = .ok found σ') :
    σ'.board = σ.board ∧ ∀ m, found = some m → ∃ other, (σ.pendingOf rule)[m.position]? = some other ∧
      Cancelling σ.critical change other := by
  unfold findMerge at h
  rw [get_bind] at h
  obtain ⟨r, σ₁, h₁, h⟩ := bind_eq_ok.mp h
  obtain ⟨-, rfl⟩ := ofExcept_eq_ok h₁
  split_ifs at h
  · cases h
    exact ⟨rfl, nofun⟩
  · refine ⟨(keeps_onChecker (lasts_findMergeFrom _ _ _ _ _ _)).ok h, ?_⟩
    rintro m rfl
    obtain ⟨c, hc, -⟩ := exists_of_onPart h
    obtain ⟨i, other, hm, hi, hcancel⟩ := findMergeFrom_ok hc
    rw [Nat.zero_add] at hm
    exact ⟨other, hm ▸ hi, hcancel⟩

/-! ## Taking a change -/

theorem withdraw_ok {position : Nat} {u : Unit} (h : withdraw rule position change σ = .ok u σ') :
    σ'.board = σ.board.setPending rule ((σ.pendingOf rule).eraseIdx position) := by
  unfold withdraw at h
  rw [get_bind, set_bind] at h
  generalize (σ.pendingOf rule)[position]? = found at h
  cases found with
  | some other => exact (keeps_onChecker (Checker.lasts_note _ _)).ok h
  | none =>
    cases h
    rfl

theorem countMerge_ok {u : Unit} (h : onChecker (Checker.count "merged" 1) σ = .ok u σ') :
    σ'.board = σ.board.countMerge := by
  cases h
  unfold board Board.countMerge Checker.outline
  rw [Checker.getD_count, if_pos rfl]

theorem merge_ok {merged : Bool} (h : merge rule change σ = .ok merged σ') :
    merged = false ∧ σ'.board = σ.board ∨
      merged = true ∧ ∃ i other, (σ.pendingOf rule)[i]? = some other ∧
        Cancelling σ.critical change other ∧
        σ'.board = (σ.board.setPending rule ((σ.pendingOf rule).eraseIdx i)).countMerge := by
  unfold merge at h
  by_cases hk : change.kind = .update
  · rw [if_pos hk] at h
    cases h
    exact .inl ⟨rfl, rfl⟩
  rw [if_neg hk] at h
  obtain ⟨found, σ₁, h₁, h⟩ := bind_eq_ok.mp h
  obtain ⟨hboard, hfound⟩ := findMerge_ok h₁
  cases found with
  | none =>
    cases h
    exact .inl ⟨rfl, hboard⟩
  | some m =>
    obtain ⟨other, hother, hcancel⟩ := hfound m rfl
    -- A swap only concerns the rule.
    obtain ⟨σ₂, hboard₂, h⟩ : ∃ σ₂ : Scheduler, σ₂.board = σ₁.board ∧ (do
        withdraw rule m.position change
        onChecker (Checker.count "merged" 1)
        return true) σ₂ = .ok merged σ' := by
      cases m with
      | annihilate i => exact ⟨σ₁, rfl, h⟩
      | swap i r =>
        obtain ⟨u, σ₂, h₂, h⟩ := bind_eq_ok.mp h
        exact ⟨σ₂, (keeps_onChecker (Checker.lasts_replace r)).ok h₂, h⟩
    obtain ⟨u, σ₃, h₃, h⟩ := bind_eq_ok.mp h
    obtain ⟨u', σ₄, h₄, h⟩ := bind_eq_ok.mp h
    cases h
    refine .inr ⟨rfl, m.position, other, hother, hcancel, ?_⟩
    rw [countMerge_ok h₄, withdraw_ok h₃]
    change ((σ₂.board.setPending rule ((σ₂.board.pendingOf rule).eraseIdx _)).countMerge) = _
    rw [hboard₂, hboard]
    rfl

/-- What a change does to what waits for a rule that takes it: the pending batch, the next one, and the
position of the waiting change that it is merged with. -/
inductive Takes (critical : ExtTreeSet Nat) (change : Change) (pending : List Change) :
    List Change → Option (List Change) → Option Nat → Prop
  | append : Takes critical change pending (pending ++ [change]) none none
  | defer (waiting : pending ≠ []) : Takes critical change pending pending (some [change]) none
  | cancel {i : Nat} {other : Change} (at_i : pending[i]? = some other)
      (cancelling : Cancelling critical change other) :
      Takes critical change pending (pending.eraseIdx i) none (some i)

/-- Some rules take a change, and some of them merge it with the waiting change at a position. -/
structure TakeIn (rules : List String) (change : Change) (b b' : Board) (ms : List (String × Nat)) :
    Prop where
  mode : b'.mode = b.mode
  critical : b'.critical = b.critical
  sentence? : b'.outline.sentence? = b.outline.sentence?
  merged : b'.outline.merged = b.outline.merged + ms.length
  distinct : (ms.map Prod.fst).Nodup
  among : ∀ m ∈ ms, m.1 ∈ rules
  others : ∀ id ∉ rules, b'.pendingOf id = b.pendingOf id ∧ b'.next[id]? = b.next[id]?
  takes : ∀ id ∈ rules, ∃ o, Takes b.critical change (b.pendingOf id) (b'.pendingOf id) b'.next[id]? o ∧
    ∀ i, (id, i) ∈ ms ↔ o = some i

namespace TakeIn

variable {b b₁ b₂ : Board} {rules : List String} {ms ms' : List (String × Nat)}

theorem setPending_others (b : Board) (batch : List Change) {id : String} (hid : id ∉ [rule]) :
    (b.setPending rule batch).pendingOf id = b.pendingOf id := by
  rw [Board.pendingOf_setPending, if_neg fun e => hid (List.mem_singleton.mpr e.symm)]

theorem append (b : Board) (hn : b.next[rule]? = none) :
    TakeIn [rule] change b (b.setPending rule (b.pendingOf rule ++ [change])) [] := by
  refine ⟨rfl, rfl, rfl, rfl, List.nodup_nil, nofun, fun id hid => ⟨setPending_others b _ hid, rfl⟩,
    fun id hid => ⟨none, ?_, fun i => ⟨nofun, nofun⟩⟩⟩
  obtain rfl := List.mem_singleton.mp hid
  rw [Board.pendingOf_setPending, if_pos rfl]
  change Takes _ _ _ _ b.next[id]? _
  rw [hn]
  exact .append

theorem defer (b : Board) (hw : b.pendingOf rule ≠ []) :
    TakeIn [rule] change b (b.setNext rule [change]) [] := by
  refine ⟨rfl, rfl, rfl, rfl, List.nodup_nil, nofun, fun id hid => ⟨rfl, ?_⟩,
    fun id hid => ⟨none, ?_, fun i => ⟨nofun, nofun⟩⟩⟩
  · rw [Board.getElem?_setNext, if_neg fun e => hid (List.mem_singleton.mpr e.symm)]
  · obtain rfl := List.mem_singleton.mp hid
    rw [Board.getElem?_setNext, if_pos rfl]
    exact .defer hw

theorem cancel (b : Board) (hn : b.next[rule]? = none) {i : Nat} {other : Change}
    (hi : (b.pendingOf rule)[i]? = some other) (hc : Cancelling b.critical change other) :
    TakeIn [rule] change b (b.setPending rule ((b.pendingOf rule).eraseIdx i)).countMerge
      [(rule, i)] := by
  refine ⟨rfl, rfl, rfl, rfl, List.nodup_singleton _,
    fun m hm => List.mem_singleton.mpr (List.mem_singleton.mp hm ▸ rfl),
    fun id hid => ⟨setPending_others b _ hid, rfl⟩, fun id hid => ⟨some i, ?_, fun k => ?_⟩⟩
  · obtain rfl := List.mem_singleton.mp hid
    change Takes _ _ _ ((b.setPending id _).pendingOf id) b.next[id]? _
    rw [Board.pendingOf_setPending, if_pos rfl, hn]
    exact .cancel hi hc
  · obtain rfl := List.mem_singleton.mp hid
    rw [List.mem_singleton, Prod.mk.injEq, Option.some.injEq]
    exact ⟨fun h => h.2.symm, fun h => ⟨rfl, h.symm⟩⟩

theorem cons (h : TakeIn [rule] change b b₁ ms) (h' : TakeIn rules change b₁ b₂ ms') (hr : rule ∉ rules) :
    TakeIn (rule :: rules) change b b₂ (ms ++ ms') where
  mode := h'.mode.trans h.mode
  critical := h'.critical.trans h.critical
  sentence? := h'.sentence?.trans h.sentence?
  merged := by rw [h'.merged, h.merged, List.length_append, Nat.add_assoc]
  distinct := by
    rw [List.map_append, List.nodup_append']
    refine ⟨h.distinct, h'.distinct, fun id hid hid' => hr ?_⟩
    obtain ⟨m, hm, rfl⟩ := List.mem_map.mp hid
    obtain ⟨m', hm', he⟩ := List.mem_map.mp hid'
    rw [← List.mem_singleton.mp (h.among m hm), ← he]
    exact h'.among m' hm'
  among m hm := by
    rcases List.mem_append.mp hm with hm | hm
    · exact List.mem_cons.mpr (.inl (List.mem_singleton.mp (h.among m hm)))
    · exact List.mem_cons_of_mem _ (h'.among m hm)
  others id hid := by
    rw [List.mem_cons, not_or] at hid
    obtain ⟨hp, hn⟩ := h.others id (fun e => hid.1 (List.mem_singleton.mp e))
    obtain ⟨hp', hn'⟩ := h'.others id hid.2
    exact ⟨hp'.trans hp, hn'.trans hn⟩
  takes id hid := by
    rcases List.mem_cons.mp hid with rfl | hid
    · obtain ⟨o, ho, hms⟩ := h.takes id (List.mem_singleton.mpr rfl)
      obtain ⟨hp, hn⟩ := h'.others id hr
      refine ⟨o, by rw [hp, hn]; exact ho, fun i => ?_⟩
      rw [List.mem_append, ← hms]
      exact or_iff_left fun hm => hr (h'.among _ hm)
    · obtain ⟨o, ho, hms⟩ := h'.takes id hid
      have hne : id ∉ [rule] := fun e => hr (List.mem_singleton.mp e ▸ hid)
      obtain ⟨hp, -⟩ := h.others id hne
      refine ⟨o, by rw [h.critical, hp] at ho; exact ho, fun i => ?_⟩
      rw [List.mem_append, ← hms]
      exact or_iff_right fun hm => hne (h.among _ hm)

end TakeIn

/-- **A rule takes a change.** -/
theorem take_ok {u : Unit} (h : take rule change σ = .ok u σ')
    (hn : σ.board.next[rule]? = none) :
    ∃ ms, TakeIn [rule] change σ.board σ'.board ms := by
  have happend : ∀ σ₁ : Scheduler, σ₁.board = σ.board → append rule change σ₁ = .ok u σ' →
      ∃ ms, TakeIn [rule] change σ.board σ'.board ms := fun σ₁ hboard h => by
    have hb : σ'.board = σ₁.board.setPending rule (σ₁.board.pendingOf rule ++ [change]) := by
      cases h
      rfl
    rw [hb, hboard]
    exact ⟨[], .append _ hn⟩
  unfold take at h
  rw [get_bind] at h
  split_ifs at h with hempty
  · exact happend σ rfl h
  obtain ⟨r, σ₁, h₁, h⟩ := bind_eq_ok.mp h
  obtain ⟨-, rfl⟩ := ofExcept_eq_ok h₁
  split_ifs at h with hsplit
  · obtain ⟨u', σ₂, h₂, h⟩ := bind_eq_ok.mp h
    have hboard := (keeps_onChecker (Checker.lasts_note _ _)).ok h₂
    have hb : σ'.board = σ₂.board.setNext rule (σ₂.board.next.getD rule [] ++ [change]) := by
      cases h
      rfl
    have hnone : σ₁.board.next.getD rule [] = [] := by
      rw [ExtTreeMap.getD_eq_getD_getElem?, hn, Option.getD_none]
    rw [hb, hboard, hnone]
    exact ⟨[], .defer _ fun e => hempty (List.isEmpty_iff.mpr e)⟩
  · obtain ⟨merged, σ₂, h₂, h⟩ := bind_eq_ok.mp h
    rcases merge_ok h₂ with ⟨rfl, hboard⟩ | ⟨rfl, i, other, hi, hcancel, hboard⟩
    · exact happend σ₂ hboard h
    · cases h
      exact ⟨[(rule, i)], hboard ▸ .cancel _ hn hi hcancel⟩

/-- **Many rules take a change.** -/
theorem takes_ok {rules : List String} : ∀ {σ σ' : Scheduler} {u : Unit}, rules.Nodup →
    (∀ id ∈ rules, σ.board.next[id]? = none) →
    (rules.forM fun rule => take rule change) σ = .ok u σ' →
    ∃ ms, TakeIn rules change σ.board σ'.board ms := by
  induction rules with
  | nil =>
    intro σ σ' u _ _ h
    cases h
    exact ⟨[], rfl, rfl, rfl, rfl, List.nodup_nil, nofun, fun _ _ => ⟨rfl, rfl⟩, nofun⟩
  | cons rule rules ih =>
    intro σ σ' u hnodup hn h
    rw [List.nodup_cons] at hnodup
    rw [List.forall_mem_cons] at hn
    obtain ⟨u', σ₁, h₁, h⟩ := bind_eq_ok.mp h
    obtain ⟨ms, hms⟩ := take_ok h₁ hn.1
    have hnext : ∀ id ∈ rules, σ₁.board.next[id]? = none := fun id hid =>
      (hms.others id fun e => hnodup.1 (List.mem_singleton.mp e ▸ hid)).2.trans (hn.2 id hid)
    obtain ⟨ms', hms'⟩ := ih hnodup.2 hnext h
    exact ⟨ms ++ ms', hms.cons hms' hnodup.1⟩

end Scheduler

end RuleMonitor
