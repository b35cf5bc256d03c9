import RuleMonitor.Proofs.Schedule.Moving

/-!
# Accounts of changes

Each change that is scheduled over a pattern of a rule after the rule was registered is delivered once:
it is in one batch that was submitted, or it waits, or it was merged with one other change. Changes are
told apart by the positions of their events.

* `Sentence.scheduled`: the changes scheduled over patterns of a sentence.
* `Merged`, `Merged.Proper`: two changes that were merged.
* `Placed`: where the changes of a sentence are; `Placed.length_scheduled`: how many they are.
* `Placed.moves`: what a move for the rule comes to; `Accounts.step`: one event.
* **`Scheduler.delivers_once`**: a run without failures.
-/

namespace RuleMonitor

open Std (ExtTreeMap)

open Routine

/-! ## Changes of a sentence -/

/-- The change that is scheduled at a position. -/
def changeAt? (es : List Event) (i : Nat) : Option Change :=
  match es[i]? with
  | some (.schedule change) => some change
  | _ => none

/-- The positions of the changes over patterns of a sentence that are scheduled after it is
registered. -/
def Sentence.scheduled (s : Sentence) (es : List Event) : List Nat :=
  (List.range es.length).filter fun i =>
    (es.take i).any (·.registers s) && (es[i]?.bind (·.change? s)).isSome

/-- Two changes that were merged for a rule, by their positions. -/
structure Merged where
  rule : String
  first : Nat
  second : Nat

/-- The merges of a rule. -/
def mergesOf (rule : String) (merges : List Merged) : List Merged :=
  merges.filter fun m => m.rule = rule

/-- The positions of the changes that were merged for a rule. -/
def mergedPositions (rule : String) (merges : List Merged) : List Nat :=
  (mergesOf rule merges).flatMap fun m => [m.first, m.second]

/-- The changes of a sentence that were not merged. -/
def Sentence.unmerged (s : Sentence) (es : List Event) (merges : List Merged) : List Nat :=
  (s.scheduled es).filter fun i => i ∉ mergedPositions s.rule merges

/-- A merge is of two changes of the sentence over one pattern, of opposite kinds, and neither context
was critical when the second of them was scheduled. -/
structure Merged.Proper (es : List Event) (s : Sentence) (m : Merged) : Prop where
  first_mem : m.first ∈ s.scheduled es
  second_mem : m.second ∈ s.scheduled es
  before : m.first < m.second
  changes : ∃ a b, changeAt? es m.first = some a ∧ changeAt? es m.second = some b ∧
    a.pattern = b.pattern ∧ a.kind.isOpposite b.kind = true ∧
    .critical a.id ∉ es.take m.second ∧ .critical b.id ∉ es.take m.second

/-- Where the changes of a sentence are. The batches that were submitted for the rule, followed by what is
pending, are the changes that were not merged, in the order in which they were scheduled. -/
structure Placed (s : Sentence) (es : List Event) (merges : List Merged)
    (log : List (String × List Change)) (pending : List Change) : Prop where
  proper : ∀ m ∈ mergesOf s.rule merges, m.Proper es s
  disjoint : (mergedPositions s.rule merges).Nodup
  listed : (s.unmerged es merges).map (changeAt? es) =
    ((batchesOf s.rule log).flatten ++ pending).map some

section Scheduled

variable {s : Sentence} {es : List Event} {e : Event} {i : Nat}

theorem changeAt?_append (h : i < es.length) : changeAt? (es ++ [e]) i = changeAt? es i := by
  unfold changeAt?
  rw [List.getElem?_append_left h]

theorem lt_of_mem_scheduled (h : i ∈ s.scheduled es) : i < es.length :=
  List.mem_range.mp (List.mem_of_mem_filter h)

theorem nodup_scheduled (s : Sentence) (es : List Event) : (s.scheduled es).Nodup :=
  List.nodup_range.filter _

theorem scheduled_concat (s : Sentence) (es : List Event) (e : Event) :
    s.scheduled (es ++ [e]) = s.scheduled es ++
      if es.any (·.registers s) = true ∧ (e.change? s).isSome = true then [es.length] else [] := by
  unfold Sentence.scheduled
  rw [List.length_append, List.length_singleton, List.range_succ, List.filter_append]
  congr 1
  · refine List.filter_congr fun i hi => ?_
    have hi := List.mem_range.mp hi
    rw [List.take_append_of_le_length (Nat.le_of_lt hi), List.getElem?_append_left hi]
  · rw [List.filter_singleton, List.take_left, List.getElem?_concat_length, Option.bind_some,
      Bool.cond_eq_ite]
    simp only [Bool.and_eq_true]

theorem scheduled_eq_nil (h : es.any (·.registers s) = false) : s.scheduled es = [] := by
  refine List.filter_eq_nil_iff.mpr fun i _ hi => ?_
  obtain ⟨hany, -⟩ := (Bool.and_eq_true _ _).mp hi
  obtain ⟨e, he, hs⟩ := List.any_eq_true.mp hany
  exact absurd (List.any_eq_true.mpr ⟨e, List.mem_of_mem_take he, hs⟩) (Bool.eq_false_iff.mp h)

theorem Merged.Proper.append {m : Merged} (h : m.Proper es s) (e : Event) :
    m.Proper (es ++ [e]) s := by
  have hsub : ∀ {i}, i ∈ s.scheduled es → i ∈ s.scheduled (es ++ [e]) := fun hi => by
    rw [scheduled_concat]
    exact List.mem_append_left _ hi
  obtain ⟨a, b, ha, hb, hp, hk, hca, hcb⟩ := h.changes
  have hfirst := lt_of_mem_scheduled h.first_mem
  have hsecond := lt_of_mem_scheduled h.second_mem
  refine ⟨hsub h.first_mem, hsub h.second_mem, h.before, a, b, (changeAt?_append hfirst).trans ha,
    (changeAt?_append hsecond).trans hb, hp, hk, ?_⟩
  rw [List.take_append_of_le_length (Nat.le_of_lt hsecond)]
  exact ⟨hca, hcb⟩

theorem Event.change?_eq_some {change : Change} (h : e.change? s = some change) :
    e = .schedule change := by
  cases e with
  | schedule c =>
    obtain ⟨-, h⟩ := Option.ite_none_right_eq_some.mp h
    rw [Option.some.inj h]
  | register | critical | flush => cases h

theorem mergesOf_append (rule : String) (merges new : List Merged) :
    mergesOf rule (merges ++ new) = mergesOf rule merges ++ mergesOf rule new :=
  List.filter_append ..

theorem mergedPositions_append (rule : String) (merges new : List Merged) :
    mergedPositions rule (merges ++ new) = mergedPositions rule merges ++ mergedPositions rule new := by
  unfold mergedPositions
  rw [mergesOf_append, List.flatMap_append]

end Scheduled

/-! ## Moves and accounts -/

namespace Placed

variable {s : Sentence} {es : List Event} {e : Event} {merges new : List Merged}
  {log log' : List (String × List Change)} {pending pending' : List Change}

theorem mem_scheduled (h : Placed s es merges log pending) :
    ∀ i ∈ mergedPositions s.rule merges, i ∈ s.scheduled es := by
  intro i hi
  obtain ⟨m, hm, hi⟩ := List.mem_flatMap.mp hi
  rcases List.mem_pair.mp hi with rfl | rfl
  · exact (h.proper m hm).first_mem
  · exact (h.proper m hm).second_mem

/-- **How many changes there are**: those that were submitted, those that wait, and two for each merge. -/
theorem length_scheduled (h : Placed s es merges log pending) :
    (s.scheduled es).length = (batchesOf s.rule log).flatten.length + pending.length +
      2 * (mergesOf s.rule merges).length := by
  have hunmerged : (s.unmerged es merges).length =
      (batchesOf s.rule log).flatten.length + pending.length := by
    have := congrArg List.length h.listed
    rwa [List.length_map, List.length_map, List.length_append] at this
  have hmerged : ((s.scheduled es).filter fun i => i ∈ mergedPositions s.rule merges).Perm
      (mergedPositions s.rule merges) := by
    refine (List.perm_ext_iff_of_nodup ((nodup_scheduled s es).filter _) h.disjoint).mpr fun i => ?_
    rw [List.mem_filter, decide_eq_true_eq]
    exact and_iff_right_of_imp (h.mem_scheduled i)
  have htwo : (mergedPositions s.rule merges).length = 2 * (mergesOf s.rule merges).length := by
    unfold mergedPositions
    induction mergesOf s.rule merges with
    | nil => rfl
    | cons m ms ih =>
      rw [List.flatMap_cons, List.length_append, ih]
      simp only [List.length_cons, List.length_nil]
      omega
  have hrest : (s.unmerged es merges).length =
      ((s.scheduled es).filter fun i => !decide (i ∈ mergedPositions s.rule merges)).length :=
    congrArg List.length (List.filter_congr fun i _ => decide_not)
  rw [List.length_eq_length_filter_add fun i => decide (i ∈ mergedPositions s.rule merges), ← hrest,
    hmerged.length_eq, htwo, hunmerged, Nat.add_comm]

/-- The changes that were not merged before the event stay so, except those that are merged now, and a
change that the event schedules is one more. -/
theorem unmerged_concat (h : Placed s es merges log pending)
    (hreg : es.any (·.registers s) = true) :
    s.unmerged (es ++ [e]) (merges ++ new) =
      (s.unmerged es merges ++ if (e.change? s).isSome = true then [es.length] else []).filter
        fun i => i ∉ mergedPositions s.rule new := by
  have hlast : es.length ∉ mergedPositions s.rule merges := fun hi =>
    absurd (lt_of_mem_scheduled (h.mem_scheduled _ hi)) (Nat.lt_irrefl _)
  have hkept : s.unmerged es merges ++ (if (e.change? s).isSome = true then [es.length] else []) =
      (s.scheduled (es ++ [e])).filter fun i => i ∉ mergedPositions s.rule merges := by
    rw [scheduled_concat, List.filter_append]
    unfold Sentence.unmerged
    rw [hreg]
    congr 1
    by_cases hc : (e.change? s).isSome = true
    · rw [if_pos hc, if_pos ⟨rfl, hc⟩, List.filter_singleton, decide_eq_true hlast]
      rfl
    · rw [if_neg hc, if_neg fun h => hc h.2]
      rfl
  rw [hkept, List.filter_filter]
  unfold Sentence.unmerged
  refine List.filter_congr fun i _ => ?_
  rw [Bool.eq_iff_iff, Bool.and_eq_true, decide_eq_true_eq, decide_eq_true_eq, decide_eq_true_eq,
    mergedPositions_append, List.mem_append, not_or, and_comm]

theorem map_unmerged (h : Placed s es merges log pending) :
    (s.unmerged es merges ++ if (e.change? s).isSome = true then [es.length] else []).map
        (changeAt? (es ++ [e])) =
      ((batchesOf s.rule log).flatten ++ (pending ++ (e.change? s).toList)).map some := by
  have hold : (s.unmerged es merges).map (changeAt? (es ++ [e])) =
      (s.unmerged es merges).map (changeAt? es) :=
    List.map_congr_left fun i hi =>
      changeAt?_append (lt_of_mem_scheduled (List.mem_of_mem_filter hi))
  rw [List.map_append, hold, h.listed, ← List.append_assoc]
  conv_rhs => rw [List.map_append]
  congr 1
  cases hc : e.change? s with
  | none => rfl
  | some change =>
    rw [Option.isSome_some, if_pos rfl, Event.change?_eq_some hc, List.map_singleton]
    unfold changeAt?
    rw [List.getElem?_concat_length]
    rfl

/-- Nothing is merged: what is submitted, with what then waits, is what waited before, and the change of
the event. -/
theorem append (h : Placed s es merges log pending) (hreg : es.any (·.registers s) = true)
    (hnew : mergesOf s.rule new = [])
    (hl : (batchesOf s.rule log').flatten ++ pending' = pending ++ (e.change? s).toList) :
    Placed s (es ++ [e]) (merges ++ new) (log ++ log') pending' where
  proper m hm := by
    rw [mergesOf_append, hnew, List.append_nil] at hm
    exact (h.proper m hm).append e
  disjoint := by
    rw [mergedPositions_append, mergedPositions, mergedPositions, hnew, List.flatMap_nil,
      List.append_nil]
    exact h.disjoint
  listed := by
    have hall : (fun i => decide (i ∉ mergedPositions s.rule new)) = fun _ => true := by
      unfold mergedPositions
      rw [hnew]
      funext i
      exact decide_eq_true List.not_mem_nil
    rw [h.unmerged_concat hreg, hall, List.filter_true, h.map_unmerged, batchesOf_append,
      List.flatten_append, List.append_assoc, hl]

/-- Without two changes that are merged, all that were not merged before are left but one. -/
theorem unmerged_cancel (h : Placed s es merges log pending) (hreg : es.any (·.registers s) = true)
    (hc : (e.change? s).isSome = true) {k p : Nat} (hp : (s.unmerged es merges)[k]? = some p)
    (hnew : mergedPositions s.rule new = [p, es.length]) :
    s.unmerged (es ++ [e]) (merges ++ new) = (s.unmerged es merges).eraseIdx k := by
  have hnodup : (s.unmerged es merges).Nodup := (nodup_scheduled s es).filter _
  obtain ⟨hlt, hget⟩ := List.getElem?_eq_some_iff.mp hp
  have hdrop : [es.length].filter (fun i => decide (i ∉ [p, es.length])) = [] := by simp
  rw [h.unmerged_concat hreg, if_pos hc, List.filter_append, hnew, hdrop, List.append_nil,
    ← hnodup.erase_getElem _ hlt, hget, hnodup.erase_eq_filter]
  refine List.filter_congr fun i hi => ?_
  have hne : i ≠ es.length := Nat.ne_of_lt (lt_of_mem_scheduled (List.mem_of_mem_filter hi))
  rw [Bool.eq_iff_iff]
  simp [hne]

theorem changeAt?_waiting (h : Placed s es merges log pending) {i p : Nat} {other : Change}
    (hi : pending[i]? = some other)
    (hp : (s.unmerged es merges)[(batchesOf s.rule log).flatten.length + i]? = some p) :
    changeAt? es p = some other := by
  have hlisted := congrArg (·[(batchesOf s.rule log).flatten.length + i]?) h.listed
  simp only [List.getElem?_map, hp, Option.map_some] at hlisted
  rw [List.getElem?_append_right (Nat.le_add_right _ _), Nat.add_sub_cancel_left, hi] at hlisted
  exact Option.some.inj hlisted

/-- The event schedules a change that is merged with the waiting one at a position. -/
theorem cancel (h : Placed s es merges log pending) (hreg : es.any (·.registers s) = true)
    {change other : Change} {i p : Nat} (hc : e.change? s = some change)
    (hi : pending[i]? = some other)
    (hp : (s.unmerged es merges)[(batchesOf s.rule log).flatten.length + i]? = some p)
    (hpattern : other.pattern = change.pattern) (hopposite : other.kind.isOpposite change.kind = true)
    (hother : .critical other.id ∉ es) (hchange : .critical change.id ∉ es)
    (hnew : mergesOf s.rule new = [⟨s.rule, p, es.length⟩]) (hlog : batchesOf s.rule log' = []) :
    Placed s (es ++ [e]) (merges ++ new) (log ++ log') (pending.eraseIdx i) := by
  have hconcerned : (e.change? s).isSome = true := hc ▸ rfl
  have hpositions : mergedPositions s.rule new = [p, es.length] := by
    unfold mergedPositions
    rw [hnew]
    rfl
  obtain ⟨hscheduled, hfresh⟩ := List.mem_filter.mp (List.mem_of_getElem? hp)
  have hlt : p < es.length := lt_of_mem_scheduled hscheduled
  have hlast : changeAt? (es ++ [e]) es.length = some change := by
    unfold changeAt?
    rw [List.getElem?_concat_length, Event.change?_eq_some hc]
  have hproper : Merged.Proper (es ++ [e]) s ⟨s.rule, p, es.length⟩ := by
    refine ⟨?_, ?_, hlt, other, change, (changeAt?_append hlt).trans (h.changeAt?_waiting hi hp), hlast,
      hpattern, hopposite, ?_⟩
    · rw [scheduled_concat]
      exact List.mem_append_left _ hscheduled
    · rw [scheduled_concat, if_pos ⟨hreg, hconcerned⟩]
      exact List.mem_append_right _ (List.mem_singleton.mpr rfl)
    · rw [List.take_left]
      exact ⟨hother, hchange⟩
  refine ⟨fun m hm => ?_, ?_, ?_⟩
  · rw [mergesOf_append, hnew] at hm
    rcases List.mem_append.mp hm with hm | hm
    · exact (h.proper m hm).append e
    · exact List.mem_singleton.mp hm ▸ hproper
  · rw [mergedPositions_append, hpositions, List.nodup_append']
    refine ⟨h.disjoint, List.nodup_cons.mpr ⟨?_, List.nodup_singleton _⟩, fun k hk hk' => ?_⟩
    · exact fun hmem => Nat.ne_of_lt hlt (List.mem_singleton.mp hmem)
    · rcases List.mem_pair.mp hk' with rfl | rfl
      · exact of_decide_eq_true hfresh hk
      · exact absurd (lt_of_mem_scheduled (h.mem_scheduled _ hk)) (Nat.lt_irrefl _)
  · have hold : ((s.unmerged es merges).eraseIdx _).map (changeAt? (es ++ [e])) =
        ((s.unmerged es merges).eraseIdx ((batchesOf s.rule log).flatten.length + i)).map
          (changeAt? es) :=
      List.map_congr_left fun k hk => changeAt?_append
        (lt_of_mem_scheduled (List.mem_of_mem_filter (List.mem_of_mem_eraseIdx hk)))
    rw [h.unmerged_cancel hreg hconcerned hp hpositions, hold, ← List.eraseIdx_map, h.listed,
      List.eraseIdx_map, List.eraseIdx_append_of_length_le (Nat.le_add_right _ _),
      Nat.add_sub_cancel_left, batchesOf_append, hlog, List.append_nil]

/-- **A move for the rule** keeps its changes in place. -/
theorem moves {critical : Std.ExtTreeSet Nat} {batches : List (List Change)} {o : Option Nat}
    (h : Placed s es merges log pending) (hreg : es.any (·.registers s) = true)
    (hcritical : ∀ id, critical.contains id = true ↔ .critical id ∈ es)
    (hm : e.Moves critical (some s) pending pending' batches o)
    (hlog : batchesOf s.rule log' = batches)
    (hnew : mergesOf s.rule new = (o.map fun i => ⟨s.rule,
      (s.unmerged es merges).getD ((batchesOf s.rule log).flatten.length + i) 0, es.length⟩).toList) :
    Placed s (es ++ [e]) (merges ++ new) (log ++ log') pending' := by
  cases hm with
  | rest unconcerned =>
    refine h.append hreg hnew ?_
    rw [hlog, unconcerned s rfl]
    simp
  | append rule concerned =>
    obtain rfl := Option.some.inj rule
    refine h.append hreg hnew ?_
    rw [hlog, concerned]
    rfl
  | turn rule concerned waiting =>
    obtain rfl := Option.some.inj rule
    refine h.append hreg hnew ?_
    rw [hlog, concerned]
    simp
  | flush waiting =>
    refine h.append hreg hnew ?_
    rw [hlog]
    simp [Event.change?]
  | @cancel _ _ _ change other i rule concerned at_i cancelling =>
    obtain rfl := Option.some.inj rule
    have hlen : (s.unmerged es merges).length =
        (batchesOf s.rule log).flatten.length + pending.length := by
      have := congrArg List.length h.listed
      rwa [List.length_map, List.length_map, List.length_append] at this
    obtain ⟨hilt, -⟩ := List.getElem?_eq_some_iff.mp at_i
    have hp := List.getElem?_eq_getElem (l := s.unmerged es merges)
      (i := (batchesOf s.rule log).flatten.length + i) (by omega)
    rw [Option.map_some, List.getD_eq_getElem?_getD, hp] at hnew
    have hnot : ∀ id, critical.contains id = false → .critical id ∉ es := fun id hid hmem =>
      absurd ((hcritical id).mpr hmem) (Bool.eq_false_iff.mp hid)
    exact h.cancel hreg concerned at_i hp cancelling.pattern cancelling.opposite
      (hnot _ cancelling.other) (hnot _ cancelling.change) hnew hlog

end Placed

open Scheduler (Board)

/-- What a run comes to: each registered sentence has its changes in place, and nothing waits for other
rules. -/
structure Accounts (es : List Event) (merges : List Merged) (log : List (String × List Change))
    (b : Board) : Prop where
  idle : b.Idle
  critical : ∀ id, b.critical.contains id = true ↔ .critical id ∈ es
  sentence? : ∀ id s, b.outline.sentence? id = some s ↔ es.any (·.registers s) = true ∧ s.rule = id
  merged : b.outline.merged = merges.length
  unknown : ∀ id, b.outline.sentence? id = none →
    b.pendingOf id = [] ∧ batchesOf id log = [] ∧ mergesOf id merges = []
  recent : ∀ m ∈ merges, m.second < es.length
  placed : ∀ s, es.any (·.registers s) = true → Placed s es merges log (b.pendingOf s.rule)

theorem sentence?_start (options : CheckerOptions) (reg : Registry) (id : String) :
    (Scheduler.start .batched options reg).board.outline.sentence? id = none := by
  change ((∅ : ExtTreeMap String Rule)[id]?).map (fun r : Rule => r.sentence) = none
  rw [ExtTreeMap.getElem?_empty]
  rfl

theorem accounts_start (options : CheckerOptions) (reg : Registry) :
    Accounts [] [] [] (Scheduler.start .batched options reg).board where
  idle := ⟨rfl, rfl, fun id s h => by
    rw [sentence?_start] at h
    cases h⟩
  critical id := by
    change (∅ : Std.ExtTreeSet Nat).contains id = true ↔ _
    rw [Std.ExtTreeSet.contains_empty]
    exact ⟨nofun, nofun⟩
  sentence? id s := by
    rw [sentence?_start]
    exact ⟨nofun, fun h => absurd h.1 Bool.false_ne_true⟩
  merged := by
    change (∅ : Counters).getD "merged" 0 = 0
    rw [ExtTreeMap.getD_empty]
  unknown id _ := ⟨Scheduler.pendingOf_of_none (σ := Scheduler.start .batched options reg)
    ExtTreeMap.getElem?_empty, rfl, rfl⟩
  recent := nofun
  placed s h := absurd h Bool.false_ne_true

namespace Accounts

variable {es : List Event} {e : Event} {merges : List Merged} {log log' : List (String × List Change)}
  {b b' : Board} {ms : List (String × Nat)}

theorem filter_key {id : String} {o : Option Nat} (hd : (ms.map Prod.fst).Nodup)
    (h : ∀ i, (id, i) ∈ ms ↔ o = some i) :
    ms.filter (fun m => m.1 = id) = (o.map fun i => (id, i)).toList := by
  cases o with
  | none =>
    refine List.filter_eq_nil_iff.mpr fun m hm hid => ?_
    obtain rfl := of_decide_eq_true hid
    exact nomatch (h m.2).mp hm
  | some i =>
    have hsame : ms.filter (fun m => m.1 = id) = ms.filter fun m => m = (id, i) :=
      List.filter_congr fun m hm => decide_eq_decide.mpr
        ⟨fun hid => by
          subst hid
          rw [Option.some.inj ((h m.2).mp hm)], fun e => congrArg Prod.fst e⟩
    rw [hsame, List.filter_eq, (List.Nodup.of_map _ hd).count, if_pos ((h i).mpr rfl)]
    rfl

theorem placed_fresh {s : Sentence} {new : List Merged} (h : Accounts es merges log b)
    (hs : b.outline.sentence? s.rule = none) (hlog : batchesOf s.rule log' = [])
    (hnew : mergesOf s.rule new = []) :
    Placed s (es ++ [e]) (merges ++ new) (log ++ log') [] := by
  obtain ⟨-, hbatches, hmerges⟩ := h.unknown _ hs
  have hall : mergesOf s.rule (merges ++ new) = [] := by rw [mergesOf_append, hmerges, hnew]; rfl
  have hpositions : mergedPositions s.rule (merges ++ new) = [] := by
    unfold mergedPositions
    rw [hall]
    rfl
  have hreg : es.any (·.registers s) = false := by
    refine Bool.eq_false_iff.mpr fun hreg => ?_
    rw [(h.sentence? _ _).mpr ⟨hreg, rfl⟩] at hs
    cases hs
  refine ⟨fun m hm => ?_, hpositions ▸ List.nodup_nil, ?_⟩
  · rw [hall] at hm
    cases hm
  unfold Sentence.unmerged
  rw [scheduled_concat, scheduled_eq_nil hreg, if_neg fun h => absurd (hreg ▸ h.1) Bool.false_ne_true,
    batchesOf_append, hbatches, hlog]
  rfl

/-- The merge of a rule that merges the change scheduled now with the waiting change at a position. -/
def mergeAt (b : Board) (es : List Event) (merges : List Merged) (log : List (String × List Change))
    (m : String × Nat) : Merged where
  rule := m.1
  first := match b.outline.sentence? m.1 with
    | some s => (s.unmerged es merges).getD ((batchesOf s.rule log).flatten.length + m.2) 0
    | none => 0
  second := es.length

theorem mergesOf_mergeAt (he : e.Performed b b' log' ms) {id : String} {o : Option Nat}
    (ho : ∀ i, (id, i) ∈ ms ↔ o = some i) :
    mergesOf id (ms.map (mergeAt b es merges log)) =
      (o.map fun i => mergeAt b es merges log (id, i)).toList := by
  have hfilter : mergesOf id (ms.map (mergeAt b es merges log)) =
      (ms.filter fun m => m.1 = id).map (mergeAt b es merges log) := List.filter_map
  rw [hfilter, filter_key he.distinct ho]
  cases o <;> rfl

theorem step_unknown (h : Accounts es merges log b) (he : e.Performed b b' log' ms) {id : String}
    (hid : b.outline.sentence? id = none) : b'.pendingOf id = [] ∧ batchesOf id log' = [] ∧
      mergesOf id (ms.map (mergeAt b es merges log)) = [] := by
  obtain ⟨o, hmoves, ho⟩ := he.moves id
  rw [hid, (h.unknown id hid).1] at hmoves
  generalize hp : b'.pendingOf id = pending' at hmoves
  generalize hl : batchesOf id log' = batches at hmoves
  cases hmoves with
  | rest => exact ⟨rfl, rfl, mergesOf_mergeAt he ho⟩
  | append rule | turn rule | cancel rule => cases rule
  | flush waiting => exact absurd rfl waiting

theorem step_placed (h : Accounts es merges log b) (he : e.Performed b b' log' ms) {s : Sentence}
    (hs : (es ++ [e]).any (·.registers s) = true) :
    Placed s (es ++ [e]) (merges ++ ms.map (mergeAt b es merges log)) (log ++ log')
      (b'.pendingOf s.rule) := by
  by_cases hreg : es.any (·.registers s) = true
  · have hsentence := (h.sentence? s.rule s).mpr ⟨hreg, rfl⟩
    obtain ⟨o, hmoves, ho⟩ := he.moves s.rule
    rw [hsentence] at hmoves
    refine (h.placed s hreg).moves hreg h.critical hmoves rfl ((mergesOf_mergeAt he ho).trans ?_)
    simp only [mergeAt, hsentence]
  · have hregisters : e.registers s = true := by
      rw [List.any_append, Bool.or_eq_true, List.any_cons, List.any_nil, Bool.or_false] at hs
      exact hs.resolve_left hreg
    have hfresh := he.fresh s hregisters
    obtain ⟨hp, hl, hm⟩ := h.step_unknown he hfresh
    rw [hp]
    exact h.placed_fresh hfresh hl hm

/-- **An event** keeps the accounts. What it merges is new. -/
theorem step (h : Accounts es merges log b) (he : e.Performed b b' log' ms) :
    ∃ new, (∀ m ∈ new, m.second = es.length) ∧
      Accounts (es ++ [e]) (merges ++ new) (log ++ log') b' := by
  have hrecent : ∀ m ∈ ms.map (mergeAt b es merges log), m.second = es.length := fun m hm => by
    obtain ⟨m', -, rfl⟩ := List.mem_map.mp hm
    rfl
  refine ⟨ms.map (mergeAt b es merges log), hrecent, ?_⟩
  exact {
    idle := {
      mode := he.mode.trans h.idle.mode
      next := he.next
      keyed := fun id s hs => by
        rcases (he.sentence? id s).mp hs with hs | ⟨-, hid⟩
        · exact h.idle.keyed id s hs
        · exact hid }
    critical := fun id => by
      rw [he.critical, h.critical, List.mem_append, List.mem_singleton, eq_comm (a := e)]
    sentence? := fun id s => by
      rw [he.sentence?, h.sentence?, List.any_append, Bool.or_eq_true, or_and_right]
      simp only [List.any_cons, List.any_nil, Bool.or_false]
    merged := by rw [he.merged, h.merged, List.length_append, List.length_map]
    unknown := fun id hid => by
      have hbefore : b.outline.sentence? id = none := Option.eq_none_iff_forall_ne_some.mpr
        fun s hs => by
          rw [(he.sentence? id s).mpr (.inl hs)] at hid
          cases hid
      obtain ⟨hp, hl, hm⟩ := h.step_unknown he hbefore
      obtain ⟨-, hl', hm'⟩ := h.unknown id hbefore
      refine ⟨hp, ?_, ?_⟩
      · rw [batchesOf_append, hl', hl]
        rfl
      · rw [mergesOf_append, hm', hm]
        rfl
    recent := fun m hm => by
      rw [List.length_append, List.length_singleton]
      rcases List.mem_append.mp hm with hm | hm
      · exact Nat.lt_succ_of_lt (h.recent m hm)
      · exact Nat.lt_succ_of_le (Nat.le_of_eq (hrecent m hm))
    placed := fun s hs => h.step_placed he hs }

end Accounts

/-! ## Runs -/

namespace Scheduler

variable {σ σ' : Scheduler} {es : List Event} {e : Event}

/-- Lets events happen in order, and answers the batches that are submitted. -/
def deliveries : List Event → Routine Scheduler (List (String × List Change))
  | [] => return []
  | e :: es => do
    let due ← e.intake
    let _ ← submitAll due
    let more ← deliveries es
    return nonempty due ++ more

/-- Each batch that is submitted is reported on, under the name of its rule. -/
theorem submitAll_ok {due : List (String × List Change)} : ∀ {σ σ' : Scheduler}
    {reports : List Report}, σ.board.outline.Keyed → submitAll due σ = .ok reports σ' →
    List.Forall₂ (fun b report => report.rule = b.1) (nonempty due) reports := by
  induction due with
  | nil =>
    intro σ σ' reports _ h
    cases h
    exact .nil
  | cons b due ih =>
    obtain ⟨rule, batch⟩ := b
    intro σ σ' reports hkeyed h
    unfold submitAll at h
    unfold nonempty
    by_cases hempty : batch.isEmpty = true
    · rw [if_pos hempty] at h
      rw [List.filter_cons_of_neg (by simpa using hempty)]
      exact ih hkeyed h
    · rw [if_neg hempty] at h
      rw [List.filter_cons_of_pos (by simpa using hempty)]
      obtain ⟨report, σ₁, hsubmit, h⟩ := bind_eq_ok.mp h
      obtain ⟨rest, σ₂, hrest, h⟩ := bind_eq_ok.mp h
      cases h
      have hboard := (keeps_submit rule batch).ok hsubmit
      refine .cons ?_ (ih (hboard ▸ hkeyed) hrest)
      obtain ⟨s, hs, hreport⟩ := submit_names hsubmit
      exact hreport.trans (hkeyed rule s hs)

/-- **A run** keeps the accounts at every moment. What it merges, it merges from now on. -/
theorem performAll_accounts : ∀ {σ σ' : Scheduler} {reports : List Report} {done : List Event}
    {merges : List Merged} {log : List (String × List Change)}, Accounts done merges log σ.board →
    performAll es σ = .ok reports σ' →
    ∃ new : List Merged, (∀ m ∈ new, done.length ≤ m.second) ∧
      ∀ pre post, es = pre ++ post → ∃ log' τ before, deliveries pre σ = .ok log' τ ∧
        performAll pre σ = .ok before τ ∧
        List.Forall₂ (fun b report => report.rule = b.1) log' before ∧
        Accounts (done ++ pre)
          (merges ++ new.filter fun m => m.second < done.length + pre.length) (log ++ log')
          τ.board := by
  induction es with
  | nil =>
    intro σ σ' reports done merges log h _
    refine ⟨[], nofun, fun pre post hes => ?_⟩
    obtain ⟨rfl, -⟩ := List.append_eq_nil_iff.mp hes.symm
    refine ⟨[], σ, [], rfl, rfl, .nil, ?_⟩
    rw [List.filter_nil, List.append_nil, List.append_nil, List.append_nil]
    exact h
  | cons e es ih =>
    intro σ σ' reports done merges log h hrun
    obtain ⟨first, σ₁, hfirst, hrun⟩ := bind_eq_ok.mp hrun
    obtain ⟨rest, σ₂, hrest, -⟩ := bind_eq_ok.mp hrun
    obtain ⟨due, τ, hintake, hsubmit⟩ := Event.perform_eq_ok.mp hfirst
    obtain ⟨ms, hms⟩ := Event.intake_performed hintake h.idle
    obtain ⟨new, hnew, hstep⟩ := h.step hms
    have hreported := submitAll_ok hstep.idle.keyed hsubmit
    rw [← (keeps_submitAll due).ok hsubmit] at hstep
    obtain ⟨more, hmore, hmoments⟩ := ih hstep hrest
    rw [List.length_append, List.length_singleton] at hmore hmoments
    have hlate : ∀ m ∈ new ++ more, done.length ≤ m.second := fun m hm => by
      rcases List.mem_append.mp hm with hm | hm
      · exact Nat.le_of_eq (hnew m hm).symm
      · exact Nat.le_of_succ_le (hmore m hm)
    refine ⟨new ++ more, hlate, fun pre post hes => ?_⟩
    cases pre with
    | nil =>
      have hnone : (new ++ more).filter (fun m => decide (m.second < done.length + 0)) = [] :=
        List.filter_eq_nil_iff.mpr fun m hm => by
          rw [decide_eq_true_eq, Nat.add_zero, Nat.not_lt]
          exact hlate m hm
      refine ⟨[], σ, [], rfl, rfl, .nil, ?_⟩
      rw [List.length_nil, hnone, List.append_nil, List.append_nil, List.append_nil]
      exact h
    | cons e' pre =>
      obtain ⟨rfl, rfl⟩ := List.cons_eq_cons.mp hes
      obtain ⟨log', τ', before, hdeliver, hperform, hreports, haccounts⟩ := hmoments pre post rfl
      have hsplit : (new ++ more).filter (fun m => decide (m.second < done.length + (pre.length + 1))) =
          new ++ more.filter fun m => decide (m.second < done.length + 1 + pre.length) := by
        rw [List.filter_append, List.filter_eq_self.mpr fun m hm => ?_, Nat.add_comm pre.length 1,
          Nat.add_assoc]
        rw [decide_eq_true_eq, hnew m hm]
        omega
      refine ⟨nonempty due ++ log', τ', first ++ before, ?_, ?_, ?_, ?_⟩
      · exact (bind_ok hintake).trans ((bind_ok hsubmit).trans (bind_ok hdeliver))
      · exact (bind_ok hfirst).trans (bind_ok hperform)
      · exact List.rel_append hreported hreports
      · rw [List.length_cons, hsplit, ← List.append_assoc, ← List.append_assoc]
        rw [List.append_assoc, List.singleton_append] at haccounts
        exact haccounts

/-- **Changes are delivered exactly once.** In every run without failures in batched mode, there are pairs
of changes that were merged, the number of which is the one that was counted, and at every moment the
following holds of each registered sentence. The merges of its rule so far are of two changes each over
one pattern, of opposite kinds, and neither context was critical; no change is merged twice. All other
changes that were scheduled over patterns of the sentence are, in this order and each of them once, in the
batches that were submitted for the rule, which were reported on, and then in the pending batch. -/
theorem delivers_once {options : CheckerOptions} {reg : Registry} {reports : List Report}
    (h : performAll es (start .batched options reg) = .ok reports σ) :
    ∃ merges : List Merged, ∀ pre post, es = pre ++ post → ∃ log τ before,
      deliveries pre (start .batched options reg) = .ok log τ ∧
      performAll pre (start .batched options reg) = .ok before τ ∧
      List.Forall₂ (fun b report => report.rule = b.1) log before ∧
      let sofar := merges.filter fun m => m.second < pre.length
      τ.checker.counters.getD "merged" 0 = sofar.length ∧
      ∀ s, pre.any (·.registers s) = true → Placed s pre sofar log (τ.pendingOf s.rule) ∧
        (s.scheduled pre).length = (batchesOf s.rule log).flatten.length +
          (τ.pendingOf s.rule).length + 2 * (mergesOf s.rule sofar).length := by
  obtain ⟨merges, -, hmoments⟩ := performAll_accounts (accounts_start options reg) h
  refine ⟨merges, fun pre post hes => ?_⟩
  obtain ⟨log, τ, before, hdeliver, hperform, hreports, haccounts⟩ := hmoments pre post hes
  rw [List.nil_append, List.nil_append, List.nil_append, List.length_nil, Nat.zero_add] at haccounts
  exact ⟨log, τ, before, hdeliver, hperform, hreports, haccounts.merged, fun s hs =>
    ⟨haccounts.placed s hs, (haccounts.placed s hs).length_scheduled⟩⟩

end Scheduler

namespace Sample

/-- After the three sensors came, the last of them goes, which is merged away, and then the first one,
which starts a new batch. -/
def comings : List Event :=
  events ++ [.schedule (change .deletion 2 "0"), .schedule (change .deletion 0 "0")]

/-- What is submitted, and what then waits. -/
def delivering : Routine Scheduler (List (String × List Change) × List Change) := do
  let log ← Scheduler.deliveries comings
  return (log, (← get).pendingOf "calm")

theorem delivering_value : delivering.value (Scheduler.start .batched {} registry) =
    .ok ([("calm", [change .addition 1 "1"])], [change .deletion 0 "0"]) := by decide +kernel

/-- The rules that are reported on. -/
def reporting : Routine Scheduler (List String) := do
  let reports ← Scheduler.performAll comings
  return reports.map (·.rule)

theorem reporting_value : reporting.value (Scheduler.start .batched {} registry) = .ok ["calm"] := by
  decide +kernel

end Sample

theorem Scheduler.delivers_once_sample : ∃ merges log τ,
    deliveries Sample.comings (start .batched {} Sample.registry) = .ok log τ ∧
      Placed Sample.sentence Sample.comings merges log (τ.pendingOf "calm") ∧
      Sample.sentence.scheduled Sample.comings = [3, 4, 5, 6] ∧ (mergesOf "calm" merges).length = 1 := by
  obtain ⟨_, hvalue⟩ := exists_of_value Sample.reporting_value
  obtain ⟨reports, σ, hok, -⟩ := bind_eq_ok.mp hvalue
  obtain ⟨merges, h⟩ := delivers_once hok
  obtain ⟨log, τ, _, hdeliver, -, -, -, hplaced⟩ := h Sample.comings [] (List.append_nil _).symm
  obtain ⟨hplaced, hlength⟩ := hplaced Sample.sentence (by decide)
  obtain ⟨_, hvalue⟩ := exists_of_value Sample.delivering_value
  obtain ⟨log', τ', hdeliver', hvalue⟩ := bind_eq_ok.mp hvalue
  obtain ⟨rfl, rfl⟩ := EStateM.Result.ok.inj (hdeliver.symm.trans hdeliver')
  obtain ⟨hpair, -⟩ := EStateM.Result.ok.inj hvalue
  obtain ⟨rfl, hpending⟩ := Prod.mk.inj hpair
  have hscheduled : Sample.sentence.scheduled Sample.comings = [3, 4, 5, 6] := by decide
  refine ⟨_, _, τ, hdeliver, hplaced, hscheduled, ?_⟩
  -- Four changes were scheduled, one was submitted, and one waits.
  change 4 = 1 + (τ.pendingOf "calm").length + 2 * _ at hlength
  rw [hpending, List.length_singleton] at hlength
  change (mergesOf Sample.sentence.rule _).length = 1
  omega

end RuleMonitor
