import RuleMonitor.Proofs.Rules.Owning
import RuleMonitor.Proofs.Schedule.Moving

/-!
# Rules do not interfere

A scheduler that has many rules does to each of them what it would do if it had no other one. Taking a
change in and submitting a batch concern one rule each: they read what it has, and the contexts that are
never merged, and write nothing that another rule has. So a run with many rules is mirrored by the run
with one of them, with the other ones left out of it, event by event.

* `Scheduler.own`, `Scheduler.rest`: what a rule has, and what the other rules have.
* **`Scheduler.confined_take`**, **`Scheduler.confined_submit`**: work on one rule.
* `Scheduler.Mirrors`: a scheduler that has one of the rules of another one.
* **`Scheduler.Mirrors.perform`**: an event; **`Scheduler.mirrors_performAll`**: a run.
* **`Scheduler.alone_alike`**: a rule among others, and the rule alone.
-/

namespace RuleMonitor

open Std (ExtTreeMap ExtTreeSet)

open Routine

namespace Scheduler

variable {α : Type} {σ σ' τ : Scheduler} {id rule : String} {change : Change}

/-! ## Work on one rule -/

/-- What work on a rule reads and writes. -/
structure Own where
  mode : SchedulingMode
  critical : ExtTreeSet Nat
  checker : Checker.Own
  pending : Option (List Change)
  next : Option (List Change)

/-- What work on a rule leaves alone. -/
structure Rest where
  mode : SchedulingMode
  critical : ExtTreeSet Nat
  checker : Checker.Rest
  pending : String → Option (List Change)
  next : String → Option (List Change)

/-- What a rule has. -/
def own (id : String) (σ : Scheduler) : Own :=
  ⟨σ.mode, σ.critical, σ.checker.own id, σ.pending[id]?, σ.next[id]?⟩

/-- What the other rules have. -/
def rest (id : String) (σ : Scheduler) : Rest :=
  ⟨σ.mode, σ.critical, σ.checker.rest id, fun k => if k = id then none else σ.pending[k]?,
    fun k => if k = id then none else σ.next[k]?⟩

/-- The work is confined to a rule. -/
abbrev Confined (id : String) (x : Routine Scheduler α) (σ : Scheduler) : Prop :=
  ConfinedAt (own id) (rest id) x σ

theorem pendingOf_eq_of_own (h : τ.own id = σ.own id) : τ.pendingOf id = σ.pendingOf id := by
  have hpending : τ.pending[id]? = σ.pending[id]? := congrArg Own.pending h
  unfold pendingOf
  rw [ExtTreeMap.getD_eq_getD_getElem?, ExtTreeMap.getD_eq_getD_getElem?, hpending]

theorem checker_eq_of_own (h : τ.own id = σ.own id) : τ.checker.own id = σ.checker.own id :=
  congrArg Own.checker h

theorem others_insert (m : ExtTreeMap String (List Change)) (id : String) (batch : List Change) :
    (fun k => if k = id then none else (m.insert id batch)[k]?) =
      fun k => if k = id then none else m[k]? := by
  funext k
  rw [Map.getElem?_insert]
  split_ifs with h h'
  · rfl
  · exact absurd h'.symm h
  · rfl

theorem rest_setPending (σ : Scheduler) (id : String) (batch : List Change) :
    ({ σ with pending := σ.pending.insert id batch } : Scheduler).rest id = σ.rest id := by
  unfold rest
  simp only [others_insert]

theorem rest_setNext (σ : Scheduler) (id : String) (batch : List Change) :
    ({ σ with next := σ.next.insert id batch } : Scheduler).rest id = σ.rest id := by
  unfold rest
  simp only [others_insert]

theorem own_setPending (h : τ.own id = σ.own id) (batch : List Change) :
    ({ τ with pending := τ.pending.insert id batch } : Scheduler).own id =
      ({ σ with pending := σ.pending.insert id batch } : Scheduler).own id := by
  obtain ⟨hmode, hcritical, hchecker, -, hnext⟩ := Own.mk.inj h
  unfold own
  simp only [ExtTreeMap.getElem?_insert_self, hmode, hcritical, hchecker, hnext]

theorem own_setNext (h : τ.own id = σ.own id) (batch : List Change) :
    ({ τ with next := τ.next.insert id batch } : Scheduler).own id =
      ({ σ with next := σ.next.insert id batch } : Scheduler).own id := by
  obtain ⟨hmode, hcritical, hchecker, hpending, -⟩ := Own.mk.inj h
  unfold own
  simp only [ExtTreeMap.getElem?_insert_self, hmode, hcritical, hchecker, hpending]

theorem confined_onChecker {x : Routine Checker α} (hx : Checker.Confined id x σ.checker) :
    Confined id (onChecker x) σ := by
  refine hx.onPart (fun c hc => ?_) (fun τ hτ => checker_eq_of_own hτ) fun τ c d hτ hc => ?_
  · unfold rest
    rw [hc]
  · obtain ⟨hmode, hcritical, -, hpending, hnext⟩ := Own.mk.inj hτ
    unfold own
    simp only [hmode, hcritical, hpending, hnext, hc]

/-- **A batch that is submitted** concerns nothing but its rule. -/
theorem confined_submit (rule : String) (batch : List Change) (σ : Scheduler) :
    Confined rule (submit rule batch) σ :=
  confined_onChecker <| (Checker.confined_of_does (Checker.does_count _ _) _ _).bind
    fun _ c _ => Checker.confined_checkBatch rule batch c

/-! ## Taking a change -/

theorem confined_append (rule : String) (change : Change) (σ : Scheduler) :
    Confined rule (append rule change) σ :=
  confinedAt_modify (rest_setPending σ rule _) fun τ hτ => by
    rw [pendingOf_eq_of_own hτ]
    exact own_setPending hτ _

theorem confined_startNext (rule : String) (change : Change) (σ : Scheduler) :
    Confined rule (startNext rule change) σ :=
  confinedAt_modify (rest_setNext σ rule _) fun τ hτ => by
    have hnext : τ.next[rule]? = σ.next[rule]? := congrArg Own.next hτ
    rw [ExtTreeMap.getD_eq_getD_getElem?, hnext, ← ExtTreeMap.getD_eq_getD_getElem?]
    exact own_setNext hτ _

theorem confined_withdraw (rule : String) (position : Nat) (change : Change) (σ : Scheduler) :
    Confined rule (withdraw rule position change) σ := by
  refine confinedAt_update (rest_setPending σ rule _) (fun τ hτ => ?_) (fun τ hτ => ?_) ?_
  · rw [pendingOf_eq_of_own hτ]
    exact own_setPending hτ _
  · rw [pendingOf_eq_of_own hτ]
  · split
    · exact confined_onChecker (Checker.confined_of_does (Checker.does_note _ _) _ _)
    · exact confinedAt_pure _ _

theorem confined_probePair (r : Rule) (change other : Change) (c : Checker) :
    Checker.Confined r.id (probePair r change other) c := by
  unfold probePair
  generalize (if change.kind = .deletion then (change, other) else (other, change)) = pair
  obtain ⟨del, add⟩ := pair
  dsimp only
  split
  · exact confinedAt_pure _ _
  · rename_i context _
    refine (Checker.confined_of_does (Checker.does_enter _) _ c).bind fun _ c₁ _ => ?_
    have hprobe : ∀ d : Checker, d.own r.id = c₁.own r.id →
        d.probe r.id del.pattern context add.context =
          c₁.probe r.id del.pattern context add.context := fun d hd => by
      unfold Checker.probe Checker.withSetting
      rw [Checker.rule_eq_of_own hd, Checker.engine_eq_of_own hd]
    refine confinedAt_get (fun d hd => by rw [hprobe d hd]) ?_
    split
    · exact confinedAt_pure _ _
    · split_ifs
      · exact (Checker.confined_of_does (Checker.does_note _ _) _ _).bind
          fun _ _ _ => confinedAt_pure _ _
      · exact confinedAt_throw _ _
    · exact confinedAt_throw _ _

theorem confined_tryMerge (σ : Scheduler) (r : Rule) (pending : List Change) (change : Change)
    (position : Nat) (other : Change) (c : Checker) :
    Checker.Confined r.id (tryMerge σ r pending change position other) c := by
  unfold tryMerge
  split_ifs
  · exact confinedAt_pure _ _
  · exact confinedAt_pure _ _
  · exact confinedAt_pure _ _
  · exact (confined_probePair r change other c).bind fun _ _ _ => confinedAt_pure _ _

theorem confined_findMergeFrom (σ : Scheduler) (r : Rule) (pending : List Change) (change : Change) :
    ∀ (rest : List Change) (position : Nat) (c : Checker),
      Checker.Confined r.id (findMergeFrom σ r pending change position rest) c := by
  intro rest
  induction rest with
  | nil => exact fun _ _ => confinedAt_pure _ _
  | cons other rest ih =>
    refine fun position c => (confined_tryMerge σ r pending change position other c).bind
      fun found c₁ _ => ?_
    cases found with
    | some m => exact confinedAt_pure _ _
    | none => exact ih _ _

section Keyed

variable {r : Rule} {pending : List Change}

/-- A replacement that is found is one of the rule that is searched for. -/
theorem rule_of_tryMerge {position i : Nat} {other : Change} {rep : Replacement} {c c' : Checker}
    (hk : c.outline.Keyed)
    (h : tryMerge σ r pending change position other c = .ok (some (.swap i rep)) c') :
    rep.rule = r.id := by
  unfold tryMerge at h
  split_ifs at h
  · cases h
  · cases h
  · cases h
  obtain ⟨found, c₁, h₁, h⟩ := bind_eq_ok.mp h
  obtain ⟨rep', rfl, hrep⟩ := Option.map_eq_some_iff.mp (EStateM.Result.ok.inj h).1
  obtain ⟨-, rfl⟩ := Merge.swap.inj hrep
  unfold probePair at h₁
  generalize (if change.kind = .deletion then (change, other) else (other, change)) = pair at h₁
  obtain ⟨del, add⟩ := pair
  dsimp only at h₁
  generalize r.facts.get? del.pattern del.id = old at h₁
  cases old with
  | none => cases h₁
  | some context =>
  obtain ⟨_, c₂, h₂, h₁⟩ := bind_eq_ok.mp h₁
  rw [get_bind] at h₁
  generalize hprobe : c₂.probe r.id del.pattern context add.context = found at h₁
  match found with
  | .ok found =>
    cases h₁
    obtain ⟨r', hr', hrule⟩ := Checker.rule_of_probe hprobe
    rw [hrule]
    refine hk _ _ ?_
    rw [← (Checker.lasts_enter _).ok h₂]
    exact Checker.sentence?_of_some hr'
  | .error (.error e) =>
    dsimp only at h₁
    split_ifs at h₁ <;> cases h₁
  | .error (.crash c) => cases h₁

theorem rule_of_findMergeFrom {i : Nat} {rep : Replacement} {c' : Checker} :
    ∀ {rest : List Change} {position : Nat} {c : Checker}, c.outline.Keyed →
      findMergeFrom σ r pending change position rest c = .ok (some (.swap i rep)) c' →
      rep.rule = r.id := by
  intro rest
  induction rest with
  | nil =>
    intro position c _ h
    cases h
  | cons other rest ih =>
    intro position c hk h
    unfold findMergeFrom at h
    obtain ⟨found, c₁, h₁, h⟩ := bind_eq_ok.mp h
    cases found with
    | some m =>
      cases h
      exact rule_of_tryMerge hk h₁
    | none => exact ih ((lasts_tryMerge σ r pending change position other).ok h₁ ▸ hk) h

variable (hk : σ.checker.outline.Keyed)

include hk

theorem id_of_rule {r : Rule} (h : σ.checker.rule rule = .ok r) : r.id = rule :=
  hk rule _ (Checker.sentence?_of_rule h)

theorem confined_findMerge (rule : String) (change : Change) :
    Confined rule (findMerge rule change) σ := by
  refine confinedAt_get (fun τ hτ => ?_) ?_
  · simp only [Checker.rule_eq_of_own (checker_eq_of_own hτ), pendingOf_eq_of_own hτ,
      findMergeFrom_congr (show τ.critical = σ.critical from congrArg Own.critical hτ)]
  refine (confinedAt_ofExcept _ σ).bind fun r σ₁ h => ?_
  obtain ⟨hr, rfl⟩ := ofExcept_eq_ok h
  split_ifs
  · exact confinedAt_pure _ _
  · exact confined_onChecker (id_of_rule hk hr ▸ confined_findMergeFrom _ r _ _ _ _ _)

theorem rule_of_findMerge {i : Nat} {rep : Replacement}
    (h : findMerge rule change σ = .ok (some (.swap i rep)) σ') : rep.rule = rule := by
  unfold findMerge at h
  rw [get_bind] at h
  obtain ⟨r, σ₁, h₁, h⟩ := bind_eq_ok.mp h
  obtain ⟨hr, rfl⟩ := ofExcept_eq_ok h₁
  split_ifs at h
  · cases h
  · obtain ⟨c, hc, -⟩ := exists_of_onPart h
    exact (rule_of_findMergeFrom hk hc).trans (id_of_rule hk hr)

theorem confined_merge (rule : String) (change : Change) : Confined rule (merge rule change) σ := by
  unfold merge
  split_ifs
  · exact confinedAt_pure _ _
  refine (confined_findMerge hk rule change).bind fun found σ₁ h => ?_
  have htail : ∀ (m : Merge) (σ₂ : Scheduler), Confined rule (do
      withdraw rule m.position change
      onChecker (Checker.count "merged" 1)
      return true) σ₂ := fun m σ₂ =>
    (confined_withdraw rule _ change σ₂).bind fun _ _ _ =>
      (confined_onChecker (Checker.confined_of_does (Checker.does_count _ _) _ _)).bind
        fun _ _ _ => confinedAt_pure _ _
  match found with
  | none => exact confinedAt_pure _ _
  | some (.annihilate i) => exact htail (.annihilate i) σ₁
  | some (.swap i rep) =>
    refine (confined_onChecker ?_).bind fun _ σ₂ _ => htail (.swap i rep) σ₂
    exact rule_of_findMerge hk h ▸ Checker.confined_replace rep _

/-- **A change that a rule takes** concerns nothing but the rule. -/
theorem confined_take (rule : String) (change : Change) : Confined rule (take rule change) σ := by
  refine confinedAt_get (fun τ hτ => ?_) ?_
  · simp only [Checker.rule_eq_of_own (checker_eq_of_own hτ), pendingOf_eq_of_own hτ]
  dsimp only
  split_ifs
  · exact confined_append rule change σ
  refine (confinedAt_ofExcept _ σ).bind fun r σ₁ h => ?_
  obtain ⟨-, rfl⟩ := ofExcept_eq_ok h
  split_ifs
  · exact (confined_onChecker (Checker.confined_of_does (Checker.does_note _ _) _ _)).bind
      fun _ _ _ => confined_startNext rule change _
  · refine (confined_merge hk rule change).bind fun merged σ₂ _ => ?_
    split_ifs
    · exact confined_append rule change σ₂
    · exact confinedAt_pure _ _

end Keyed

theorem take_sentences {u : Unit} (h : take rule change σ = .ok u σ') :
    σ'.checker.outline.sentence? = σ.checker.outline.sentence? := by
  unfold take at h
  rw [get_bind] at h
  split_ifs at h
  · cases h
    rfl
  obtain ⟨r, σ₁, h₁, h⟩ := bind_eq_ok.mp h
  obtain ⟨-, rfl⟩ := ofExcept_eq_ok h₁
  split_ifs at h
  · obtain ⟨u', σ₂, h₂, h⟩ := bind_eq_ok.mp h
    cases h
    exact congrArg (fun b => b.outline.sentence?) ((keeps_onChecker (Checker.lasts_note _ _)).ok h₂)
  · obtain ⟨merged, σ₂, h₂, h⟩ := bind_eq_ok.mp h
    rcases merge_ok h₂ with ⟨rfl, hboard⟩ | ⟨rfl, i, other, -, -, hboard⟩
    · cases h
      exact congrArg (fun b => b.outline.sentence?) hboard
    · cases h
      exact congrArg (fun b => b.outline.sentence?) hboard

/-! ## A rule among others, and the rule alone -/

/-- A scheduler has nothing but one of the rules of another scheduler. -/
structure Mirrors (id : String) (σ τ : Scheduler) : Prop where
  own : τ.own id = σ.own id
  keyed : σ.checker.outline.Keyed
  alone : ∀ k ≠ id, τ.share k = ⟨none, none, none⟩

/-- The work is about one rule, and keeps rules under their identifiers. -/
structure About (rule : String) (x : Routine Scheduler α) : Prop where
  confined : ∀ {σ : Scheduler}, σ.checker.outline.Keyed → Confined rule x σ
  keyed : ∀ {σ σ' : Scheduler} {a : α}, σ.checker.outline.Keyed → x σ = .ok a σ' →
    σ'.checker.outline.Keyed

theorem about_submit (rule : String) (batch : List Change) : About rule (submit rule batch) where
  confined _ := confined_submit rule batch _
  keyed {σ σ' report} hk h := by
    have houtline : σ'.checker.outline = σ.checker.outline :=
      congrArg Board.outline ((keeps_submit rule batch).ok h)
    rwa [houtline]

theorem about_take (rule : String) (change : Change) : About rule (take rule change) where
  confined hk := confined_take hk rule change
  keyed hk h := fun id s hs => hk id s (take_sentences h ▸ hs)

theorem about_register (s : Sentence) (facts : List Change) :
    About s.rule (onChecker (Checker.addRule s facts)) where
  confined _ := confined_onChecker (Checker.confined_addRule s facts _)
  keyed {σ σ' report} hk h := by
    obtain ⟨c, hc, rfl⟩ := exists_of_onPart h
    intro id s' hs'
    have hsentence := (Checker.addRule_ok hc).2.2 id
    rw [show c.outline.sentence? id = some s' from hs'] at hsentence
    split_ifs at hsentence with hid
    · rw [Option.some.inj hsentence]
      exact hid
    · exact hk id s' hsentence.symm

theorem share_eq_of_rest {k : String} (h : σ'.rest id = σ.rest id) (hk : k ≠ id) :
    σ'.share k = σ.share k := by
  obtain ⟨-, -, hchecker, hpending, hnext⟩ := Rest.mk.inj h
  have hrules := congrFun (congrArg Checker.Rest.others hchecker) k
  have hpending := congrFun hpending k
  have hnext := congrFun hnext k
  simp only [Checker.rest, if_neg hk] at hrules hpending hnext
  unfold share
  rw [hrules, hpending, hnext]

theorem own_eq_of_rest (h : σ'.rest rule = σ.rest rule) (hne : id ≠ rule) : σ'.own id = σ.own id := by
  obtain ⟨hmode, hcritical, hchecker, -, -⟩ := Rest.mk.inj h
  obtain ⟨hoptions, hregistry, -⟩ := Checker.Rest.mk.inj hchecker
  obtain ⟨hrule, hpending, hnext⟩ := Share.mk.inj (share_eq_of_rest h hne)
  unfold own Checker.own
  rw [hmode, hcritical, hoptions, hregistry, hrule, hpending, hnext]

namespace Mirrors

theorem sentence? (h : Mirrors id σ τ) (k : String) : τ.checker.outline.sentence? k =
    if k = id then σ.checker.outline.sentence? k else none := by
  split_ifs with hk
  · subst hk
    have hrule : τ.checker.rules[k]? = σ.checker.rules[k]? :=
      congrArg Checker.Own.rule (checker_eq_of_own h.own)
    exact congrArg (Option.map (·.sentence)) hrule
  · have hnone : τ.checker.rules[k]? = none := congrArg Share.rule (h.alone k hk)
    exact congrArg (Option.map (·.sentence)) hnone

theorem keyed_alone (h : Mirrors id σ τ) : τ.checker.outline.Keyed := by
  intro k s hs
  rw [h.sentence? k] at hs
  split_ifs at hs
  exact h.keyed k s hs

theorem step (h : Mirrors id σ τ) {x : Routine Scheduler α} {a : α} (hx : About id x)
    (hok : x σ = .ok a σ') : ∃ τ', x τ = .ok a τ' ∧ Mirrors id σ' τ' := by
  obtain ⟨τ', hτ, hown⟩ := (hx.confined h.keyed hok).2 τ h.own
  have hrest := (hx.confined h.keyed_alone hτ).1
  exact ⟨τ', hτ, hown, hx.keyed h.keyed hok, fun k hk => (share_eq_of_rest hrest hk).trans
    (h.alone k hk)⟩

theorem skip (h : Mirrors id σ τ) {x : Routine Scheduler α} {a : α} (hx : About rule x)
    (hne : rule ≠ id) (hok : x σ = .ok a σ') : Mirrors id σ' τ :=
  ⟨h.own.trans (own_eq_of_rest (hx.confined h.keyed hok).1 hne.symm).symm, hx.keyed h.keyed hok,
    h.alone⟩

/-- **Many rules take a change.** -/
theorem takes {rules : List String} {u : Unit} : ∀ {σ τ : Scheduler}, Mirrors id σ τ →
    rules.forM (fun rule => take rule change) σ = .ok u σ' →
    ∃ τ', (rules.filter (· = id)).forM (fun rule => take rule change) τ = .ok u τ' ∧
      Mirrors id σ' τ' := by
  induction rules with
  | nil =>
    intro σ τ h hok
    cases hok
    exact ⟨τ, rfl, h⟩
  | cons rule rules ih =>
    intro σ τ h hok
    obtain ⟨_, σ₁, h₁, hok⟩ := bind_eq_ok.mp hok
    by_cases hid : rule = id
    · subst hid
      obtain ⟨τ₁, hτ₁, h⟩ := h.step (about_take rule change) h₁
      obtain ⟨τ', hτ', h⟩ := ih h hok
      refine ⟨τ', ?_, h⟩
      rw [List.filter_cons_of_pos (by simp)]
      exact (bind_ok hτ₁).trans hτ'
    · rw [List.filter_cons_of_neg (by simpa using hid)]
      exact ih (h.skip (about_take rule change) hid h₁) hok

/-- **What is due is submitted.** -/
theorem submitAll {due : List (String × List Change)} : ∀ {σ τ : Scheduler} {reports : List Report},
    Mirrors id σ τ → submitAll due σ = .ok reports σ' →
    ∃ τ', Scheduler.submitAll (due.filter (·.1 = id)) τ =
        .ok (reports.filter (·.rule = id)) τ' ∧ Mirrors id σ' τ' := by
  induction due with
  | nil =>
    intro σ τ reports h hok
    cases hok
    exact ⟨τ, rfl, h⟩
  | cons b due ih =>
    intro σ τ reports h hok
    obtain ⟨rule, batch⟩ := b
    unfold Scheduler.submitAll at hok
    split_ifs at hok with hempty
    · obtain ⟨τ', hτ', h⟩ := ih h hok
      refine ⟨τ', ?_, h⟩
      rw [List.filter_cons]
      split_ifs
      · unfold Scheduler.submitAll
        rw [if_pos hempty]
        exact hτ'
      · exact hτ'
    obtain ⟨report, σ₁, h₁, hok⟩ := bind_eq_ok.mp hok
    obtain ⟨rest, σ₂, h₂, hok⟩ := bind_eq_ok.mp hok
    cases hok
    have hname : report.rule = rule := by
      obtain ⟨s, hs, hreport⟩ := submit_names h₁
      exact hreport.trans (h.keyed rule s hs)
    by_cases hid : rule = id
    · subst hid
      obtain ⟨τ₁, hτ₁, h⟩ := h.step (about_submit rule batch) h₁
      obtain ⟨τ', hτ', h⟩ := ih h h₂
      refine ⟨τ', ?_, h⟩
      rw [List.filter_cons_of_pos (by simp), List.filter_cons_of_pos (by simpa using hname)]
      unfold Scheduler.submitAll
      rw [if_neg hempty]
      exact (bind_ok hτ₁).trans (bind_ok hτ')
    · rw [List.filter_cons_of_neg (by simpa using hid),
        List.filter_cons_of_neg (by simpa [hname] using hid)]
      exact ih (h.skip (about_submit rule batch) hid h₁) h₂

/-! ### What is due -/

theorem pending (h : Mirrors id σ τ) (k : String) :
    τ.pending[k]? = if k = id then σ.pending[k]? else none := by
  split_ifs with hk
  · subst hk
    exact congrArg Own.pending h.own
  · exact congrArg Share.pending (h.alone k hk)

theorem next (h : Mirrors id σ τ) (k : String) :
    τ.next[k]? = if k = id then σ.next[k]? else none := by
  split_ifs with hk
  · subst hk
    exact congrArg Own.next h.own
  · exact congrArg Share.next (h.alone k hk)

theorem rulesOver (h : Mirrors id σ τ) (pattern : String) :
    τ.checker.rulesOver pattern = (σ.checker.rulesOver pattern).filter (· = id) := by
  have hmem : ∀ k, k ∈ τ.checker.rulesOver pattern ↔
      k ∈ σ.checker.rulesOver pattern ∧ k = id := fun k => by
    rw [Checker.mem_rulesOver h.keyed_alone, Checker.mem_rulesOver h.keyed, h.sentence? k]
    split_ifs with hk
    · exact (and_iff_left hk).symm
    · exact iff_of_false (fun ⟨_, hs, _⟩ => nomatch hs) fun hm => hk hm.2
  refine Lists.eq_of_mem_iff (Checker.nodup_rulesOver h.keyed_alone _)
    ((Checker.nodup_rulesOver h.keyed _).filter _) (fun k hk l hl => ?_) fun k => ?_
  · rw [((hmem k).mp hk).2, ((hmem l).mp hl).2]
  · rw [hmem, List.mem_filter, decide_eq_true_eq]

theorem toList_eq {m m' : ExtTreeMap String (List Change)}
    (h : ∀ k, m'[k]? = if k = id then m[k]? else none) :
    m'.toList = m.toList.filter (·.1 = id) := by
  have hmem : ∀ e, e ∈ m'.toList ↔ e ∈ m.toList ∧ e.1 = id := fun ⟨k, v⟩ => by
    rw [ExtTreeMap.mem_toList_iff_getElem?_eq_some, ExtTreeMap.mem_toList_iff_getElem?_eq_some, h k]
    split_ifs with hk
    · exact (and_iff_left hk).symm
    · exact iff_of_false (fun e => nomatch e) fun hm => hk hm.2
  refine Lists.eq_of_mem_iff (Map.nodup_map_fst_toList m').of_map
    ((Map.nodup_map_fst_toList m).of_map.filter _) (fun e he e' he' => ?_) fun e => ?_
  · refine List.inj_on_of_nodup_map (Map.nodup_map_fst_toList m') he he' ?_
    rw [((hmem e).mp he).2, ((hmem e').mp he').2]
  · rw [hmem, List.mem_filter, decide_eq_true_eq]

theorem turnOver {due : List (String × List Change)} (h : Mirrors id σ τ)
    (hok : turnOver σ = .ok due σ') :
    ∃ τ', Scheduler.turnOver τ = .ok (due.filter (·.1 = id)) τ' ∧ Mirrors id σ' τ' := by
  cases hok
  have hdue : (τ.next.toList.map fun e => (e.1, τ.pendingOf e.1)) =
      (σ.next.toList.map fun e => (e.1, σ.pendingOf e.1)).filter (·.1 = id) := by
    rw [List.filter_map, toList_eq h.next]
    refine List.map_congr_left fun e he => ?_
    have hid : e.1 = id := by simpa using (List.mem_filter.mp he).2
    rw [hid, pendingOf_eq_of_own h.own]
  refine ⟨{ τ with pending := τ.pending.insertMany τ.next.toList, next := ∅ }, ?_, ?_, h.keyed,
    fun k hk => ?_⟩
  · rw [← hdue]
    rfl
  · obtain ⟨hmode, hcritical, hchecker, hpending, hnext⟩ := Own.mk.inj h.own
    unfold Scheduler.own
    simp only [Map.getElem?_insertMany_toList, hmode, hcritical, hchecker, hpending, hnext]
  · obtain ⟨hrule, hpending, hnext⟩ := Share.mk.inj (h.alone k hk)
    unfold share
    simp only [Map.getElem?_insertMany_toList, hrule, hpending, hnext, ExtTreeMap.getElem?_empty,
      Option.or_none]

theorem intake {due : List (String × List Change)} (h : Mirrors id σ τ)
    (hok : intake change σ = .ok due σ') :
    ∃ τ', Scheduler.intake change τ = .ok (due.filter (·.1 = id)) τ' ∧ Mirrors id σ' τ' := by
  have hmode : τ.mode = σ.mode := congrArg Own.mode h.own
  cases hm : σ.mode with
  | immediate =>
    rw [intake_of_immediate hm] at hok
    cases hok
    refine ⟨τ, ?_, h⟩
    rw [intake_of_immediate (hmode.trans hm), h.rulesOver, List.filter_map]
    rfl
  | batched =>
    rw [intake_of_batched hm] at hok
    obtain ⟨u, σ₁, h₁, h₂⟩ := bind_eq_ok.mp hok
    obtain ⟨τ₁, hτ₁, htaken⟩ := h.takes h₁
    obtain ⟨τ', hτ', hturned⟩ := htaken.turnOver h₂
    refine ⟨τ', ?_, hturned⟩
    rw [intake_of_batched (hmode.trans hm), h.rulesOver]
    exact (bind_ok hτ₁).trans hτ'

end Mirrors

end Scheduler

/-! ## Events and runs -/

/-- The event is not the registration of another rule. -/
def Event.concerns (id : String) : Event → Bool
  | register s _ => s.rule = id
  | schedule _ | critical _ | flush => true

namespace Scheduler

variable {σ σ' τ : Scheduler} {id : String} {e : Event} {due : List (String × List Change)}

theorem Mirrors.intake_concerned (h : Mirrors id σ τ) (he : e.concerns id = true)
    (hok : e.intake σ = .ok due σ') :
    ∃ τ', e.intake τ = .ok (due.filter (·.1 = id)) τ' ∧ Mirrors id σ' τ' := by
  cases e with
  | register s facts =>
    obtain ⟨report, σ₁, h₁, hok⟩ := bind_eq_ok.mp hok
    cases hok
    obtain rfl : s.rule = id := of_decide_eq_true he
    obtain ⟨τ', hτ', h⟩ := h.step (about_register s facts) h₁
    exact ⟨τ', bind_ok hτ', h⟩
  | schedule change => exact h.intake hok
  | critical context =>
    cases hok
    refine ⟨τ.addCritical context, rfl, ?_, h.keyed, h.alone⟩
    exact congrArg (fun o : Own => { o with critical := o.critical.insert context }) h.own
  | flush =>
    cases hok
    refine ⟨{ τ with pending := ∅ }, ?_, ?_, h.keyed, fun k hk => ?_⟩
    · rw [← Mirrors.toList_eq h.pending]
      rfl
    · have hempty : ∀ σ : Scheduler, ({ σ with pending := ∅ } : Scheduler).own id =
          { σ.own id with pending := none } := fun σ => by
        unfold Scheduler.own
        rw [ExtTreeMap.getElem?_empty]
      rw [hempty, hempty, h.own]
    · obtain ⟨hrule, -, hnext⟩ := Share.mk.inj (h.alone k hk)
      unfold share
      rw [hrule, hnext, ExtTreeMap.getElem?_empty]

theorem performAll_singleton (e : Event) : performAll [e] = e.perform := by
  simp only [performAll, pure_bind, List.append_nil, bind_pure]

/-- **An event is mirrored**, or left out. -/
theorem Mirrors.perform {reports : List Report} (h : Mirrors id σ τ)
    (hok : e.perform σ = .ok reports σ') :
    ∃ τ', performAll ([e].filter (·.concerns id)) τ = .ok (reports.filter (·.rule = id)) τ' ∧
      Mirrors id σ' τ' := by
  cases he : e.concerns id with
  | true =>
    obtain ⟨due, σ₁, hintake, hsubmit⟩ := Event.perform_eq_ok.mp hok
    obtain ⟨τ₁, hτ₁, h⟩ := h.intake_concerned he hintake
    obtain ⟨τ', hτ', h⟩ := h.submitAll hsubmit
    refine ⟨τ', ?_, h⟩
    have hperform := Event.perform_eq_ok.mpr ⟨_, _, hτ₁, hτ'⟩
    rw [List.filter_cons_of_pos he, List.filter_nil, performAll_singleton]
    exact hperform
  | false =>
    cases e with
    | register s facts =>
      have hne : s.rule ≠ id := of_decide_eq_false he
      obtain ⟨report, σ₁, h₁, hok⟩ := bind_eq_ok.mp hok
      cases hok
      refine ⟨τ, ?_, h.skip (about_register s facts) hne h₁⟩
      rw [List.filter_cons_of_neg (by rw [he]; exact Bool.false_ne_true)]
      rfl
    | schedule | critical | flush => cases he

theorem performAll_append {es es' : List Event} : performAll (es ++ es') = (do
    let reports ← performAll es
    let more ← performAll es'
    return reports ++ more) := by
  induction es with
  | nil => exact (bind_pure _).symm
  | cons e es ih =>
    rw [List.cons_append, performAll, ih, performAll]
    simp only [bind_assoc, pure_bind, List.append_assoc]

/-- **A run is mirrored** by the run with the events that concern the rule. -/
theorem mirrors_performAll {es : List Event} : ∀ {σ τ : Scheduler} {reports : List Report},
    Mirrors id σ τ → performAll es σ = .ok reports σ' →
    ∃ τ', performAll (es.filter (·.concerns id)) τ = .ok (reports.filter (·.rule = id)) τ' ∧
      Mirrors id σ' τ' := by
  induction es with
  | nil =>
    intro σ τ reports h hok
    cases hok
    exact ⟨τ, rfl, h⟩
  | cons e es ih =>
    intro σ τ reports h hok
    obtain ⟨first, σ₁, h₁, hok⟩ := bind_eq_ok.mp hok
    obtain ⟨more, σ₂, h₂, hok⟩ := bind_eq_ok.mp hok
    cases hok
    obtain ⟨τ₁, hτ₁, hfirst⟩ := h.perform h₁
    obtain ⟨τ', hτ', hmore⟩ := ih hfirst h₂
    refine ⟨τ', ?_, hmore⟩
    rw [← List.singleton_append, List.filter_append, performAll_append, List.filter_append]
    exact (bind_ok hτ₁).trans (bind_ok hτ')

theorem mirrors_start (id : String) (mode : SchedulingMode) (options : CheckerOptions)
    (reg : Registry) : Mirrors id (start mode options reg) (start mode options reg) where
  own := rfl
  keyed k s hs := by
    have hnone : (start mode options reg).checker.rules[k]? = none := ExtTreeMap.getElem?_empty
    exact nomatch (congrArg (Option.map (·.sentence)) hnone).symm.trans hs
  alone k _ := by
    unfold share start
    simp only [ExtTreeMap.getElem?_empty]

/-- **Rules do not interfere.** In every run without failures, in either mode, and for every identifier of
a rule, the following holds at every moment. The run without the registrations of other rules does not
fail either. Its reports are those of the whole run that are about the rule, in the same order. The rule
has the same pending batch, and it is the same: its facts, its instantiation, its status, its last error
and whether it is to be rebuilt. No other rule is reported on, waits for a change, or is registered in the
run without them. -/
theorem alone_alike {mode : SchedulingMode} {options : CheckerOptions} {reg : Registry}
    {es : List Event} {reports : List Report}
    (h : performAll es (start mode options reg) = .ok reports σ) (id : String) :
    ∀ pre post, es = pre ++ post → ∃ before τ before' τ',
      performAll pre (start mode options reg) = .ok before τ ∧
      performAll (pre.filter (·.concerns id)) (start mode options reg) = .ok before' τ' ∧
      before' = before.filter (·.rule = id) ∧ τ'.pendingOf id = τ.pendingOf id ∧
      τ'.checker.rules[id]? = τ.checker.rules[id]? ∧
      ∀ k ≠ id, τ'.checker.rules[k]? = none ∧ τ'.pendingOf k = [] := by
  rintro pre post rfl
  rw [performAll_append] at h
  obtain ⟨before, τ, hpre, -⟩ := bind_eq_ok.mp h
  obtain ⟨τ', hτ', hmirrors⟩ := mirrors_performAll (mirrors_start id mode options reg) hpre
  refine ⟨before, τ, _, τ', hpre, hτ', rfl, pendingOf_eq_of_own hmirrors.own,
    congrArg Checker.Own.rule (checker_eq_of_own hmirrors.own), fun k hk => ?_⟩
  obtain ⟨hrule, hpending, -⟩ := Share.mk.inj (hmirrors.alone k hk)
  exact ⟨hrule, pendingOf_of_none hpending⟩

end Scheduler

/-! ## A sample -/

namespace Sample

/-- No sensor is still. -/
def lively : Sentence where
  rule := "lively"
  nodes := [.application ⟨"not_still", [("v1", "x")]⟩,
    .quantified { kind := .universal, var := "x", pattern := "sensor" } 0]
  root := 1
  formula := .quantified 1 { kind := .universal, var := "x", pattern := "sensor" }
    (.application 0 ⟨"not_still", [("v1", "x")]⟩)

/-- Two rules over the same sensors, one of which cannot be evaluated. -/
def company : List Event :=
  [.register sentence [], .register lively [], .schedule unread, .flush,
    .schedule (change .update 1 "0")]

/-- The rules that are reported on, and whether there was an error. -/
def gathering : Routine Scheduler (List (String × Bool)) := do
  let reports ← Scheduler.performAll company
  return reports.map fun report => (report.rule, report.error.isSome)

theorem gathering_value : gathering.value
    (Scheduler.start .batched {} (Registry.builtin.register "calm" calm)) =
      .ok [("calm", false), ("lively", true)] := by decide +kernel

end Sample

theorem Scheduler.alone_alike_sample : ∃ reports τ reports' τ',
    performAll Sample.company (start .batched {} (Registry.builtin.register "calm" Sample.calm)) =
      .ok reports τ ∧
    reports.map (fun report => (report.rule, report.error.isSome)) =
      [("calm", false), ("lively", true)] ∧
    performAll (Sample.company.filter (·.concerns "calm"))
      (start .batched {} (Registry.builtin.register "calm" Sample.calm)) = .ok reports' τ' ∧
    reports' = reports.filter (·.rule = "calm") ∧ τ'.pendingOf "calm" = τ.pendingOf "calm" ∧
    τ'.checker.rules["calm"]? = τ.checker.rules["calm"]? := by
  obtain ⟨_, hvalue⟩ := exists_of_value Sample.gathering_value
  obtain ⟨reports, σ, hok, hvalue⟩ := bind_eq_ok.mp hvalue
  obtain ⟨hreports, -⟩ := EStateM.Result.ok.inj hvalue
  obtain ⟨before, τ, before', τ', hall, halone, hfilter, hpending, hrule, -⟩ :=
    alone_alike hok "calm" Sample.company [] (List.append_nil _).symm
  obtain ⟨rfl, rfl⟩ := EStateM.Result.ok.inj (hok.symm.trans hall)
  exact ⟨_, _, _, τ', hall, hreports, halone, hfilter, hpending, hrule⟩

end RuleMonitor
