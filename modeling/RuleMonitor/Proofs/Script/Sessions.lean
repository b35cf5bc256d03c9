import RuleMonitor.Proofs.Rules.Requests
import RuleMonitor.Proofs.Script.Drawing
import RuleMonitor.Proofs.Script.Seeding
import RuleMonitor.Script.Session

/-!
# Sessions that stay in step

A session reads a chunk to its end before it does what the items of the chunk ask for. So the roster is
ahead of the rules, which see its changes one after the other, and come to the same contexts at the end of
the chunk. A rule of the chunk starts from the end of it. It stays in step if the changes behind it are
updates of its contexts, and else the session may end with a fatal error. Apart from that, only a predicate
that crashes in a task does that.

* `Session.Runs`: computations whose failures are fatal for no other reason.
* `Session.Ahead`: the changes that the rules did not see yet; `Session.runs_act`: the items of a chunk.
* `Declarations.parseChunks`, `Items.Orderly`: what the chunks of a source ask for.
* **`Session.stays_in_step`**: whole scripts.
-/

namespace RuleMonitor

open Std (ExtTreeMap)

open Routine

/-! ## Profiles -/

mutual

theorem ProfileTree.time_error : ∀ {t : ProfileTree} {e : Failure}, t.time = .error e → e.isFatal = false
  | .node (some _) _, _, h => nomatch h
  | .node none parts, _, h => parts.time_error h

theorem ProfileParts.time_error : ∀ (parts : ProfileParts) {sum : Duration} {e : Failure},
    parts.time sum = .error e → e.isFatal = false
  | .nil, _, _, h => nomatch h
  | .cons _ part rest, sum, e, h => by
    rw [ProfileParts.time] at h
    rcases bind_eq_error h with h | ⟨time, -, h⟩
    · exact part.time_error h
    · rcases bind_eq_error h with h | ⟨sum', -, h⟩
      · unfold Duration.add Duration.checked at h
        split_ifs at h
        cases h
        rfl
      · exact rest.time_error h

end

theorem ProfileTree.inner_error {t : ProfileTree} {e : Failure} (h : t.inner = .error e) :
    e.isFatal = false := by
  obtain ⟨duration, parts⟩ := t
  exact parts.time_error h

mutual

theorem ProfileTree.entriesBelow_error : ∀ {t : ProfileTree} {scope : List String} {e : Failure},
    t.entriesBelow scope = .error e → e.isFatal = false
  | .node _ parts, _, _, h => parts.entriesBelow_error h

theorem ProfileParts.entriesBelow_error : ∀ (parts : ProfileParts) {scope : List String} {e : Failure},
    parts.entriesBelow scope = .error e → e.isFatal = false
  | .nil, _, _, h => nomatch h
  | .cons _ part rest, scope, e, h => by
    rw [ProfileParts.entriesBelow] at h
    rcases bind_eq_error h with h | ⟨inner, -, h⟩
    · exact part.inner_error h
    rcases bind_eq_error h with h | ⟨time, -, h⟩
    · exact part.time_error h
    rcases bind_eq_error h with h | ⟨below, -, h⟩
    · exact part.entriesBelow_error h
    rcases bind_eq_error h with h | ⟨more, -, h⟩
    · exact rest.entriesBelow_error h
    · cases h

end

/-- Nothing but a duration that is too long keeps a profile from being shown. -/
theorem renderProfile_error {title : String} {tree : ProfileTree} {counters : Counters} {e : Failure}
    (h : renderProfile title tree counters = .error e) : e.isFatal = false := by
  rcases bind_eq_error h with h | ⟨parts, -, h⟩
  · rcases bind_eq_error h with h | ⟨entries, -, h⟩
    · rcases bind_eq_error h with h | ⟨time, -, h⟩
      · exact tree.time_error h
      rcases bind_eq_error h with h | ⟨inner, -, h⟩
      · exact tree.inner_error h
      rcases bind_eq_error h with h | ⟨below, -, h⟩
      · exact tree.entriesBelow_error h
      · cases h
    · cases h
  · cases h

namespace Session

/-! ## Output -/

/-- What a session does with its rules, without its output and the accounts of its work. -/
def view (s : Session) : Scheduler × Declarations :=
  (s.scheduler.bare, s.declarations)

/-- The session says something, and fails with no fatal error. -/
abbrev Quiet {α : Type} (x : Routine Session α) : Prop :=
  Keeps Failure.Mild view x

theorem quiet_print (text : String) : Quiet (print text) :=
  keeps_modify fun _ => rfl

theorem quiet_note (level : NoteLevel) (text : String) : Quiet (note level text) := by
  unfold note onScheduler Scheduler.onChecker
  refine keeps_onPart (w := Scheduler.bare) ?_ (keeps_onPart (w := Checker.bare) ?_ (keeps_modify ?_))
  · exact fun _ s h => congrArg (·, s.declarations) h
  · exact fun c σ h => congrArg (fun c : Checker => { σ with checker := c }) h
  · exact fun c => rfl

theorem quiet_report (r : Report) : Quiet (report r) :=
  keeps_get.bind fun _ => quiet_print _

theorem quiet_reportAll (reports : List Report) : Quiet (reportAll reports) :=
  keeps_forM quiet_report reports

theorem quiet_reportRules : Quiet reportRules :=
  (quiet_print _).bind fun _ => keeps_get.bind fun _ =>
    (keeps_forM (fun _ => (quiet_print _).bind fun _ => quiet_report _) _).bind fun _ => quiet_print _

theorem quiet_unread {e : Failure} (he : e.isFatal = false) : Quiet (unread e) := by
  cases e with
  | crash c => exact keeps_throw rfl
  | error e => exact keeps_get.bind fun _ => (keeps_throw he).ite (quiet_print _)

theorem quiet_showProfile : Quiet showProfile := by
  refine keeps_get.bind fun s => Keeps.ite ?_ (keeps_pure _)
  refine Keeps.bind ?_ fun _ => quiet_print _
  cases h : renderProfile "top" s.scheduler.checker.profile s.scheduler.checker.counters with
  | ok block => exact keeps_pure _
  | error e => exact keeps_throw (renderProfile_error h)

/-! ## Sessions that go on -/

variable {α β : Type} {K : Failure → Prop} {pre : Session → Prop} {post : α → Session → Prop}
  {x : Routine Session α}

/-- From a session of one kind, a computation leads to a session of another kind, unless it fails, and a
failure that is a fatal error is one that a predicate can lead to. -/
structure Runs (K : Failure → Prop) (pre : Session → Prop) (x : Routine Session α)
    (post : α → Session → Prop) : Prop where
  ok : ∀ {s a s'}, pre s → x s = .ok a s' → post a s'
  error : ∀ {s e s'}, pre s → x s = .error e s' → e.isFatal = false ∨ K e

theorem runs_pure {a : α} (h : ∀ s, pre s → post a s) : Runs K pre (pure a) post where
  ok hs hx := by
    cases hx
    exact h _ hs
  error _ hx := nomatch hx

theorem runs_throw {e : Failure} (he : e.isFatal = false) : Runs K pre (throw e) post where
  ok _ hx := nomatch hx
  error _ hx := by
    cases hx
    exact .inl he

theorem Runs.bind {M : α → Session → Prop} {post : β → Session → Prop} {f : α → Routine Session β}
    (hx : Runs K pre x M) (hf : ∀ a, Runs K (M a) (f a) post) : Runs K pre (x >>= f) post where
  ok hs h := by
    obtain ⟨a, s₁, h₁, h₂⟩ := bind_eq_ok.mp h
    exact (hf a).ok (hx.ok hs h₁) h₂
  error hs h := by
    rcases Routine.bind_eq_error.mp h with h | ⟨a, s₁, h₁, h₂⟩
    · exact hx.error hs h
    · exact (hf a).error (hx.ok hs h₁) h₂

theorem Runs.imp {pre' : Session → Prop} {post' : α → Session → Prop} (hx : Runs K pre x post)
    (hpre : ∀ s, pre' s → pre s) (hpost : ∀ a s, post a s → post' a s) : Runs K pre' x post' where
  ok hs h := hpost _ _ (hx.ok (hpre _ hs) h)
  error hs h := hx.error (hpre _ hs) h

/-- From each session, a computation does what another one does from a session that it is known for. -/
theorem runs_of_eq (h : ∀ s, pre s → ∃ pre₁ y s₁, x s = y s₁ ∧ pre₁ s₁ ∧ Runs K pre₁ y post) :
    Runs K pre x post where
  ok {s _ _} hs hx := by
    obtain ⟨pre₁, y, s₁, heq, hs₁, hy⟩ := h s hs
    exact hy.ok hs₁ (heq ▸ hx)
  error {s _ _} hs hx := by
    obtain ⟨pre₁, y, s₁, heq, hs₁, hy⟩ := h s hs
    exact hy.error hs₁ (heq ▸ hx)

/-! ## The roster is ahead of the rules -/

/-- The rules, whose predicates fail in the ways `K`, did not see the last changes of the roster, which
lead them to the live contexts `T`. -/
structure Ahead (K : Failure → Prop) (d : Declarations) (l : List Change) (T : Pools) (s : Session) :
    Prop where
  declarations : s.declarations = d
  roster : d.roster.Holds T
  rules : ∃ rules P, s.scheduler.Tracks .builtin K rules P [] ∧ ∀ r ∈ rules, r.LedBy l (P r) T

variable {d : Declarations} {l : List Change} {P T : Pools} {r : Roster}

theorem Ahead.of_view {s s' : Session} (h : Ahead K d l T s) (hv : s'.view = s.view) :
    Ahead K d l T s' := by
  obtain ⟨hscheduler, hdeclarations⟩ := Prod.mk.inj hv
  obtain ⟨rules, P, htracks, hled⟩ := h.rules
  exact ⟨hdeclarations.trans h.declarations, h.roster, rules, P, htracks.of_bare hscheduler, hled⟩

theorem Quiet.runs (hx : Quiet x) : Runs K (Ahead K d l T) x fun _ => Ahead K d l T where
  ok hs h := hs.of_view (hx.ok h)
  error _ h := .inl (hx.error h).2

theorem onScheduler_ok {x : Routine Scheduler α} {s : Session} {a : α} {σ : Scheduler}
    (h : x s.scheduler = .ok a σ) :
    ∃ s', onScheduler x s = .ok a s' ∧ s'.scheduler.bare = σ.bare ∧ s'.declarations = s.declarations :=
  ⟨_, onPart_ok h, rfl, rfl⟩

theorem runs_onScheduler {M : α → Session → Prop} {x : Routine Scheduler α}
    (h : ∀ s, pre s → (∃ a σ, x s.scheduler = .ok a σ ∧ ∀ s', s'.scheduler.bare = σ.bare →
        s'.declarations = s.declarations → M a s') ∨
      ∃ e σ, x s.scheduler = .error e σ ∧ (e.isFatal = false ∨ K e)) : Runs K pre (onScheduler x) M where
  ok {s a s'} hs hx := by
    rcases h s hs with ⟨a', σ, hok, hM⟩ | ⟨e, σ, herror, -⟩
    · obtain ⟨s₁, hrun, hb, hd⟩ := onScheduler_ok hok
      obtain ⟨rfl, rfl⟩ := EStateM.Result.ok.inj (hrun.symm.trans hx)
      exact hM s₁ hb hd
    · exact nomatch (onPart_error herror).symm.trans hx
  error {s e s'} hs hx := by
    rcases h s hs with ⟨a', σ, hok, -⟩ | ⟨e', σ, herror, he⟩
    · exact nomatch (onPart_ok hok).symm.trans hx
    · obtain ⟨rfl, -⟩ := EStateM.Result.error.inj ((onPart_error herror).symm.trans hx)
      exact he

/-! ## Items -/

section Items

variable (hK : Failure.CrashClosed K)

include hK

/-- **A change** that the rules see. -/
theorem runs_schedule {c : Change} : Runs K (Ahead K d (c :: l) T) (schedule c) fun _ => Ahead K d l T := by
  refine (quiet_note _ _).runs.bind fun _ => Runs.bind (runs_onScheduler fun s hs => ?_) fun reports =>
    (quiet_reportAll reports).runs
  obtain ⟨rules, P, htracks, hled⟩ := hs.rules
  have hfits : c.Fits rules P := fun r hr hp => (hled r hr).step.1 hp
  rcases htracks.schedule hK hfits with ⟨reports, σ, hok, htracks'⟩ | ⟨e, σ, herror, he⟩
  · exact .inl ⟨reports, σ, hok, fun s' hb hd => ⟨hd.trans hs.declarations, hs.roster, rules, _,
      htracks'.of_bare hb, fun r hr => (hled r hr).step.2⟩⟩
  · exact .inr ⟨e, σ, herror, .inr he.1⟩

theorem runs_flush : Runs K (Ahead K d l T) flush fun _ => Ahead K d l T := by
  refine Runs.bind (runs_onScheduler fun s hs => ?_) fun reports => (quiet_reportAll reports).runs
  obtain ⟨rules, P, htracks, hled⟩ := hs.rules
  rcases htracks.flush hK with ⟨reports, σ, hok, htracks', -⟩ | ⟨e, σ, herror, he⟩
  · exact .inl ⟨reports, σ, hok, fun s' hb hd => ⟨hd.trans hs.declarations, hs.roster, rules, P,
      htracks'.of_bare hb, hled⟩⟩
  · exact .inr ⟨e, σ, herror, .inr he.1⟩

/-- **A rule** that starts from the contexts that all changes lead to, and sees the last of them once more,
or has the identifier of another rule. -/
theorem runs_rule {f : Sentence} (hw : f.WellFormed) (hf : Registry.builtin.FailsIn K f.formula)
    (hled : f.LedBy l T T) (hr : r.Holds T) :
    Runs K (Ahead K d l T) (act r.snapshot (.rule f)) fun _ => Ahead K d l T := by
  refine Runs.bind (runs_onScheduler fun s hs => ?_) fun report => (quiet_report report).runs
  obtain ⟨rules, P, htracks, hrules⟩ := hs.rules
  by_cases hfresh : ∀ f' ∈ rules, f'.rule ≠ f.rule
  · -- The pools of the new rule are those that its snapshot holds.
    let P' : Sentence → Pools := fun f' => if f'.rule = f.rule then T else P f'
    have hother : ∀ f' ∈ rules, P' f' = P f' := fun f' h => if_neg (hfresh f' h)
    have hnew : P' f = T := if_pos rfl
    have htracks' : s.scheduler.Tracks .builtin K rules P' [] :=
      htracks.of_pools fun f' h p _ => by rw [hother f' h]
    obtain ⟨Q, hQ, hpools⟩ := hr.snapshot f.mentions
    have hseed : f.SeededBy r.snapshot (P' f) :=
      ⟨Q, hQ, fun p hp => hnew ▸ hpools p (Sentence.mentions_iff.mpr hp)⟩
    rcases htracks'.intake_register hK hw hf hfresh hseed with
      ⟨report, σ, hadd, htracked⟩ | ⟨e, σ, herror, he⟩
    · exact .inl ⟨report, σ, hadd, fun s' hb hd => ⟨hd.trans hs.declarations, hs.roster, f :: rules, P',
        htracked.of_bare hb, List.forall_mem_cons.mpr ⟨hnew ▸ hled, fun f' h => hother f' h ▸ hrules f' h⟩⟩⟩
    · exact .inr ⟨e, σ, herror, .inr he.1⟩
  · push Not at hfresh
    obtain ⟨f', hf', hid⟩ := hfresh
    obtain ⟨rule, -, hrule, -⟩ := htracks.serves f' hf' List.not_mem_nil
    have hcontains : s.scheduler.checker.rules.contains f.rule = true := by
      rw [ExtTreeMap.contains_eq_isSome_getElem?, ← hid, hrule]
      rfl
    obtain ⟨c, herror, -⟩ := Checker.stops_addRule_of_contains hcontains r.snapshot _ rfl
    exact .inr ⟨_, _, onPart_error herror, .inl rfl⟩

theorem runs_check (snapshot : List Change) :
    Runs K (Ahead K d l T) (act snapshot .check) fun _ => Ahead K d l T :=
  (runs_flush hK).bind fun _ => quiet_reportRules.runs

end Items

theorem runs_critical (ids : List Nat) (snapshot : List Change) :
    Runs K (Ahead K d l T) (act snapshot (.critical ids)) fun _ => Ahead K d l T where
  ok {s a s'} hs h := by
    cases h
    obtain ⟨rules, P, htracks, hled⟩ := hs.rules
    refine ⟨hs.declarations, hs.roster, rules, P, ?_, hled⟩
    change (ids.foldl (·.addCritical ·) s.scheduler).Tracks _ _ _ _ _
    generalize s.scheduler = σ at htracks
    induction ids generalizing σ with
    | nil => exact htracks
    | cons id ids ih => exact ih (σ.addCritical id) { htracks with }
  error _ h := nomatch h

end Session

/-! ## Chunks -/

/-- The changes behind each rule are updates, as far as the rule mentions their patterns. Then a rule that
starts from the end of the chunk sees nothing that it cannot follow. There are other items like that, such
as an addition and the deletion of the same context behind a rule. -/
def Items.Orderly : List Item → Prop
  | [] => True
  | .rule f :: rest =>
    (∀ c ∈ rest.filterMap Item.change?, f.mentions c.pattern = true → c.kind = .update) ∧ Orderly rest
  | _ :: rest => Orderly rest

instance Items.decidableOrderly : (items : List Item) → Decidable (Items.Orderly items)
  | [] => .isTrue trivial
  | .rule _ :: rest =>
    have := decidableOrderly rest
    inferInstanceAs (Decidable (_ ∧ _))
  | .change _ :: rest | .critical _ :: rest | .check :: rest => decidableOrderly rest

theorem Arguments.number_error {args : Arguments} {position name : String} {e : Failure}
    (h : args.number position name = .error e) : e.isPredicate = true := by
  rcases bind_eq_error h with h | ⟨value, -, h⟩
  · exact text_error h
  · split at h
    · cases h
    · cases h
      rfl

theorem Predicate.notStill_error {args : Arguments} {e : Failure} (h : notStill args = .error e) :
    e.isPredicate = true := by
  rcases bind_eq_error h with h | ⟨v, -, h⟩
  · exact Arguments.text_error h
  · cases h

theorem Predicate.earlierThan_error {args : Arguments} {e : Failure} (h : earlierThan args = .error e) :
    e.isPredicate = true := by
  rcases bind_eq_error h with h | ⟨v, -, h⟩
  · exact Arguments.number_error h
  rcases bind_eq_error h with h | ⟨v', -, h⟩
  · exact Arguments.number_error h
  · cases h

/-- Two timestamps that are too far apart lead to a crash. -/
theorem Predicate.sameTime_error {args : Arguments} {e : Failure} (h : sameTime args = .error e) :
    e.isPredicate = true ∨ ∃ c, e = .crash c := by
  rcases bind_eq_error h with h | ⟨v, -, h⟩
  · exact .inl (Arguments.number_error h)
  rcases bind_eq_error h with h | ⟨v', -, h⟩
  · exact .inl (Arguments.number_error h)
  dsimp only at h
  split_ifs at h
  · cases h
  · exact .inr ⟨_, (Except.error.inj h).symm⟩

/-- The failure is local to a rule. -/
abbrev Failure.Local (e : Failure) : Prop :=
  e.isPredicate = true

/-- The failure is local to a rule, or a crash, or the error that a crash leaves in a task. -/
def Failure.LocalOrCrash (e : Failure) : Prop :=
  e.Local ∨ ∃ c : Crash, e = .crash c ∨ e = .error c.toError

theorem Failure.mild_of_isPredicate {e : Failure} (h : e.Local) : e.Mild := by
  obtain ⟨⟨kind, causes⟩⟩ | c := e
  · cases kind <;> first | rfl | cases h
  · cases h

/-- A fatal error among them is one that a crash left. -/
theorem Failure.LocalOrCrash.crashed {e : Failure} (h : e.LocalOrCrash) (hfatal : e.isFatal = true) :
    ∃ c : Crash, e = .error c.toError := by
  rcases h with h | ⟨c, rfl | rfl⟩
  · exact absurd ((mild_of_isPredicate h).symm.trans hfatal) Bool.false_ne_true
  · cases hfatal
  · exact ⟨c, rfl⟩

/-- **Predicates that rules can count on** fail locally or crash. -/
theorem Registry.builtin_failsIn (f : Formula) : builtin.FailsIn Failure.LocalOrCrash f := by
  refine failsIn_of_applications (fun _ h => .inl h) fun a _ p hp args e he => ?_
  unfold builtin register at hp
  simp only [Map.getElem?_insert, ExtTreeMap.getElem?_empty] at hp
  split_ifs at hp <;> cases hp
  · exact .inl (Arguments.texts_error he)
  · exact (Predicate.sameTime_error he).imp_right fun ⟨c, h⟩ => ⟨c, .inl h⟩
  · exact .inl (Arguments.texts_error he)
  · exact .inl (Predicate.earlierThan_error he)
  · exact .inl (Predicate.notStill_error he)

/-- The predicates of all rules fail in the ways `K`, in any bindings of their variables. -/
def Items.FailIn (K : Failure → Prop) (items : List Item) : Prop :=
  ∀ f, .rule f ∈ items → Registry.builtin.FailsIn K f.formula

/-- What the first chunks of a source are read as, one after the other. -/
def Declarations.parseChunks : (n lineOffset : Nat) → Declarations → List SourceLine → List Parsed
  | 0, _, _, _ => []
  | n + 1, lineOffset, d, source =>
    match readChunk [] source with
    | .error _ => []
    | .ok chunk =>
      if chunk.lines = 0 then []
      else
        let parsed := d.parse chunk.text lineOffset
        parsed :: parseChunks n (lineOffset + chunk.lines) parsed.declarations chunk.rest

/-- What each of the first chunks of a source asks for keeps the rules in step. -/
def Declarations.Orderly (d : Declarations) (n lineOffset : Nat) (source : List SourceLine) : Prop :=
  ∀ parsed ∈ d.parseChunks n lineOffset source, Items.Orderly parsed.items

/-- The predicates of all rules of the first chunks fail in the ways `K`. -/
def Declarations.FailIn (K : Failure → Prop) (d : Declarations) (n lineOffset : Nat)
    (source : List SourceLine) : Prop :=
  ∀ parsed ∈ d.parseChunks n lineOffset source, Items.FailIn K parsed.items

theorem Declarations.parseChunks_mono {parsed : Parsed} (n : Nat) :
    ∀ {m lineOffset : Nat} {d : Declarations} {source : List SourceLine}, n ≤ m →
    parsed ∈ d.parseChunks n lineOffset source → parsed ∈ d.parseChunks m lineOffset source := by
  induction n with
  | zero => exact fun _ h => absurd h List.not_mem_nil
  | succ n ih =>
    intro m lineOffset d source hle h
    obtain ⟨m, rfl⟩ := Nat.exists_eq_add_of_lt hle
    rw [parseChunks] at h ⊢
    cases hread : readChunk [] source with
    | error e =>
      rw [hread] at h
      exact absurd h List.not_mem_nil
    | ok chunk =>
      rw [hread] at h
      dsimp only at h ⊢
      split_ifs at h ⊢
      · exact h
      · exact (List.mem_cons.mp h).elim (fun e => e ▸ List.mem_cons_self) fun h =>
          List.mem_cons_of_mem _ (ih (Nat.le_add_right _ _) h)

namespace Session

variable {K : Failure → Prop} {d : Declarations} {l : List Change} {P T : Pools} {r : Roster}

/-- The rules saw all changes of the roster. -/
def Caught (K : Failure → Prop) (d : Declarations) (s : Session) : Prop :=
  ∃ T, Ahead K d [] T s

theorem runs_caught {α : Type} {x : Routine Session α}
    (hx : ∀ d T, Runs K (Ahead K d l T) x fun _ => Ahead K d [] T) :
    Runs K (fun s => ∃ d T, Ahead K d l T s) x fun _ s => ∃ d, Caught K d s :=
  runs_of_eq fun s ⟨d, T, hs⟩ => ⟨_, x, s, rfl, hs, (hx d T).imp (fun _ h => h) fun _ _ h => ⟨d, T, h⟩⟩

section Source

variable (hK : Failure.CrashClosed K)

include hK

/-- **The items of a chunk** come to the contexts that are live at the end of it. -/
theorem runs_act {items : List Item} (hT : P.after? (items.filterMap Item.change?) = some T)
    (hr : r.Holds T) (horderly : Items.Orderly items) (hlocal : Items.FailIn K items)
    (hbuilt : ∀ f, .rule f ∈ items → ∃ (draft : Draft) (root : Nat), draft.build root = .ok f) :
    Runs K (Ahead K d (items.filterMap Item.change?) T) (items.forM (act r.snapshot))
      fun _ => Ahead K d [] T := by
  induction items generalizing P with
  | nil => exact runs_pure fun _ h => h
  | cons item items ih =>
    have hlocal' : Items.FailIn K items := fun f hf => hlocal f (List.mem_cons_of_mem _ hf)
    have hbuilt' := fun f hf => hbuilt f (List.mem_cons_of_mem _ hf)
    cases item with
    | rule f =>
      obtain ⟨draft, root, hf⟩ := hbuilt f List.mem_cons_self
      have hled : f.LedBy (items.filterMap Item.change?) T T :=
        Sentence.ledBy_again hT fun c hc hp => horderly.1 c hc (Sentence.mentions_iff.mpr hp)
      exact (runs_rule hK (Sentence.wellFormed_of_build hf) (hlocal f List.mem_cons_self) hled hr).bind
        fun _ => ih hT horderly.2 hlocal' hbuilt'
    | change c =>
      have hT' := (Pools.after?_cons_eq_some.mp hT).2
      exact (runs_schedule hK).bind fun _ => ih hT' horderly hlocal' hbuilt'
    | critical ids => exact (runs_critical ids _).bind fun _ => ih hT horderly hlocal' hbuilt'
    | check => exact (runs_check hK _).bind fun _ => ih hT horderly hlocal' hbuilt'

/-- **A chunk** is read and done. -/
theorem runs_readItems {text : List Char} {lineOffset : Nat}
    (horderly : Items.Orderly (d.parse text lineOffset).items)
    (hlocal : Items.FailIn K (d.parse text lineOffset).items) :
    Runs K (Caught K d) (readItems text lineOffset) fun _ => Caught K (d.parse text lineOffset).declarations := by
  obtain ⟨hlog, hfailure⟩ := d.parse_logs text lineOffset
  refine runs_of_eq fun s ⟨P, hs⟩ => ?_
  obtain ⟨T, hT, hr⟩ := hlog.leads P hs.roster
  obtain ⟨rules, pools, htracks, hled⟩ := hs.rules
  -- The roster moves ahead.
  have hahead : Ahead K (d.parse text lineOffset).declarations
      ((d.parse text lineOffset).items.filterMap Item.change?) T
      { s with declarations := (d.parse text lineOffset).declarations } :=
    ⟨rfl, hr, rules, pools, htracks, fun f hf =>
      (Sentence.ledBy_of_after? hT).congr fun p hp => (Sentence.ledBy_nil.mp (hled f hf) p hp).symm⟩
  have hitems : Runs K (Ahead K (d.parse text lineOffset).declarations
      ((d.parse text lineOffset).items.filterMap Item.change?) T) ((d.parse text lineOffset).items.forM
      (act (d.parse text lineOffset).declarations.roster.snapshot)) fun _ =>
        Caught K (d.parse text lineOffset).declarations :=
    (runs_act hK hT hr horderly hlocal hlog.built).imp (fun _ h => h) fun _ _ h => ⟨T, h⟩
  cases hf : (d.parse text lineOffset).failure with
  | none =>
    refine ⟨_, _, _, ?_, hahead, hitems⟩
    rw [readItems, get_bind, hs.declarations]
    simp only [hf]
    rfl
  | some failure =>
    refine ⟨_, _, _, ?_, hahead, (quiet_unread (hfailure failure hf)).runs.bind fun _ => hitems⟩
    rw [readItems, get_bind, hs.declarations]
    simp only [hf]
    rfl

/-- **Some chunks** are read and done. -/
theorem runs_readSource (n : Nat) : ∀ {d : Declarations} {lineOffset : Nat} {source : List SourceLine},
    d.Orderly n lineOffset source → d.FailIn K n lineOffset source →
    Runs K (Caught K d) (readSource n lineOffset source) fun _ s => ∃ d', Caught K d' s := by
  induction n with
  | zero => exact fun _ _ => runs_pure fun s h => ⟨_, h⟩
  | succ n ih =>
    intro d lineOffset source hitems hfails
    rw [Declarations.Orderly, Declarations.parseChunks] at hitems
    rw [Declarations.FailIn, Declarations.parseChunks] at hfails
    rw [readSource]
    cases hread : readChunk [] source with
    | error failure =>
      exact runs_throw (by cases failure <;> rfl)
    | ok chunk =>
      rw [hread] at hitems hfails
      dsimp only at hitems hfails ⊢
      split_ifs with hlines
      · exact runs_pure fun s h => ⟨_, h⟩
      · rw [if_neg hlines, List.forall_mem_cons] at hitems hfails
        exact (runs_readItems hK hitems.1 hfails.1).bind fun _ => ih hitems.2 hfails.2

end Source

/-! ## Random changes -/

/-- **A random change** is one that the rules have yet to see. -/
theorem runs_drawChange (w : Workload Generator) : Runs K (fun s => ∃ d, Caught K d s) (drawChange w)
    fun drawn s => ∃ d T, Ahead K d drawn.1.toList T s := by
  refine runs_of_eq fun s ⟨d, P, hs⟩ => ?_
  cases hdraw : Workload.change { w with roster := s.declarations.roster } with
  | error e w' =>
    refine ⟨fun _ => True, throw e, { s with declarations := { s.declarations with roster := w'.roster } }, ?_,
      trivial, runs_throw (Workload.draws_change.error hdraw).2⟩
    rw [drawChange, get_bind, hdraw]
    rfl
  | ok c w' =>
    have hleads : s.declarations.roster.LeadsTo c.toList w'.roster := Workload.draws_change.ok hdraw
    obtain ⟨T, hT, hr⟩ := hleads P (hs.declarations ▸ hs.roster)
    obtain ⟨rules, pools, htracks, hled⟩ := hs.rules
    refine ⟨Ahead K { s.declarations with roster := w'.roster } c.toList T, pure (c, w'),
      { s with declarations := { s.declarations with roster := w'.roster } }, ?_, ?_,
      runs_pure fun s h => ⟨_, T, h⟩⟩
    · rw [drawChange, get_bind, hdraw]
      rfl
    · exact ⟨rfl, hr, rules, pools, htracks, fun f hf =>
        (Sentence.ledBy_of_after? hT).congr fun p hp => (Sentence.ledBy_nil.mp (hled f hf) p hp).symm⟩

section Generating

variable (hK : Failure.CrashClosed K)

include hK

theorem runs_generate (n : Nat) : ∀ w, Runs K (fun s => ∃ d, Caught K d s) (generate n w)
    fun _ s => ∃ d, Caught K d s := by
  induction n with
  | zero => exact fun _ => runs_pure fun s h => h
  | succ n ih =>
    refine fun w => (runs_drawChange w).bind fun drawn => ?_
    obtain ⟨change, w'⟩ := drawn
    cases change with
    | none => exact runs_caught fun d T => (quiet_note _ _).runs
    | some c => exact (runs_caught fun d T => runs_schedule hK).bind fun _ => ih w'

theorem runs_generateAll : Runs K (fun s => ∃ d, Caught K d s) generateAll fun _ s => ∃ d, Caught K d s := by
  refine runs_of_eq fun s hs => ⟨fun s => ∃ d, Caught K d s, ?_⟩
  unfold generateAll
  rw [get_bind]
  cases s.options.generate with
  | none => exact ⟨_, s, rfl, hs, runs_pure fun s h => h⟩
  | some n =>
    exact ⟨_, s, rfl, hs, (runs_caught fun d T => (quiet_note _ _).runs).bind fun _ =>
      runs_generate hK n _⟩

end Generating

/-! ## Whole scripts -/

/-- The pool of each rule, with what waits for the rule, has the live contexts of the roster, for each
pattern that the rule mentions. -/
def InStep (s : Session) : Prop :=
  ∀ (id : String) (rule : Rule), s.scheduler.checker.rules[id]? = some rule → ∃ Q : Pools,
    rule.facts.pools.after? (s.scheduler.pendingOf id) = some Q ∧
      ∀ p, rule.sentence.mentions p = true → ∀ x c,
        Q.live? p x = some c ↔ s.declarations.roster.live[x]? = some (p, c)

theorem Caught.inStep {s : Session} (h : Caught K d s) : s.InStep := by
  obtain ⟨T, hs⟩ := h
  obtain ⟨rules, P, htracks, hled⟩ := hs.rules
  intro id rule hrule
  obtain ⟨f, hf, rfl⟩ := htracks.known id rule hrule
  obtain ⟨rule', Q, hrule', -, hsent, hQ, hpools⟩ := htracks.serves f hf List.not_mem_nil
  obtain rfl := Option.some.inj (hrule.symm.trans hrule')
  refine ⟨Q, hQ, fun p hp x c => ?_⟩
  rw [hsent] at hp
  have hmem := Sentence.mentions_iff.mp hp
  have hpool : Q.pool p = T.pool p := (hpools p hmem).trans (Sentence.ledBy_nil.mp (hled f hf) p hmem)
  have hlive : Q.live? p x = T.live? p x := congrArg (·[x]?) hpool
  rw [hlive, hs.declarations]
  exact hs.roster.live p x c

theorem caught_start (K : Failure → Prop) (options : SessionOptions) : Caught K {} (start options) :=
  ⟨∅, rfl, Roster.holds_empty, [], fun _ => ∅, Scheduler.tracks_start _ _ _ _, nofun⟩

/-- **A whole script**, with the random changes behind it. -/
theorem runs_run (hK : Failure.CrashClosed K) {source : List SourceLine}
    (horderly : ({} : Declarations).Orderly (source.length + 1) 0 source)
    (hlocal : ({} : Declarations).FailIn K (source.length + 1) 0 source) :
    Runs K (Caught K {}) (run source) fun _ s => ∃ d, Caught K d s := by
  refine (runs_readSource hK _ horderly hlocal).bind fun _ => (runs_generateAll hK).bind fun _ => ?_
  exact (runs_caught fun d T => runs_flush hK).bind fun _ => runs_caught fun d T => quiet_showProfile.runs

/-- **A session stays in step** with what it reads if the changes behind each rule of a chunk are updates,
as far as the rule mentions their patterns. Whenever some chunks were read and done, each rule has the live
contexts of its patterns, up to what waits for it. Whatever the options are, and whether or not everything
could be read, only a predicate that crashed in a task ends a session with a fatal error, and then not all
predicates of the rules fail locally. -/
theorem stays_in_step (options : SessionOptions) {source : List SourceLine}
    (h : ({} : Declarations).Orderly (source.length + 1) 0 source) :
    (∀ n ≤ source.length + 1, ∀ s', readSource n 0 source (start options) = .ok () s' → s'.InStep) ∧
      ∀ e s', run source (start options) = .error e s' → e.isFatal = true →
        (∃ c : Crash, e = .error c.toError) ∧
          ¬({} : Declarations).FailIn Failure.Local (source.length + 1) 0 source := by
  have hK : Failure.CrashClosed Failure.LocalOrCrash := fun c _ => .inr ⟨c, .inr rfl⟩
  have hlocal : ∀ n, ({} : Declarations).FailIn Failure.LocalOrCrash n 0 source :=
    fun _ _ _ f _ => Registry.builtin_failsIn f.formula
  refine ⟨fun n hn s' hok => ?_, fun e s' herror hfatal => ⟨?_, fun hfails => ?_⟩⟩
  · have horderly : ({} : Declarations).Orderly n 0 source :=
      fun parsed hp => h parsed (Declarations.parseChunks_mono n hn hp)
    obtain ⟨d, hs⟩ := (runs_readSource hK n horderly (hlocal n)).ok (caught_start _ options) hok
    exact hs.inStep
  · rcases (runs_run hK h (hlocal _)).error (caught_start _ options) herror with hmild | hknown
    · exact absurd (hmild.symm.trans hfatal) Bool.false_ne_true
    · exact hknown.crashed hfatal
  · have hmild : e.isFatal = false :=
      ((runs_run (Failure.crashClosed_of_isPredicate fun _ h => h) h hfails).error (caught_start _ options)
        herror).elim id Failure.mild_of_isPredicate
    exact Bool.false_ne_true (hmild.symm.trans hfatal)

namespace Sample

/-- A rule that follows an addition, and is followed by an update in the same line. -/
def guided : List SourceLine :=
  SourceLine.ofText "(pattern visitor)\n(+ visitor ann (state \"1\"))\n(rule moving (forall v visitor (bfunc not_still (v1 v))))(~ visitor ann (state \"0\"))\n".toList

/-- A rule that is followed by an addition in the same line. -/
def crowded : List SourceLine :=
  SourceLine.ofText "(pattern visitor)\n(rule moving (forall v visitor (bfunc not_still (v1 v))))(+ visitor ann (state \"1\"))\n".toList

theorem orderly_guided : ({} : Declarations).Orderly (guided.length + 1) 0 guided := by
  have hall : (({} : Declarations).parseChunks (guided.length + 1) 0 guided).all (fun parsed =>
      decide (Items.Orderly parsed.items)) = true := by
    rw [guided, String.toList_ofList]
    decide +kernel
  exact fun parsed hp => of_decide_eq_true (List.all_eq_true.mp hall parsed hp)

end Sample

theorem stays_in_step_sample : ∃ s', readSource 3 0 Sample.guided (start {}) = .ok () s' ∧ s'.InStep := by
  have hread : (readSource 3 0 Sample.guided).value (start {}) = .ok () := by
    rw [Sample.guided, String.toList_ofList]
    decide +kernel
  have hlength : 3 ≤ Sample.guided.length + 1 := by
    rw [Sample.guided, String.toList_ofList]
    decide +kernel
  obtain ⟨s', h⟩ := exists_of_value hread
  exact ⟨s', h, (stays_in_step {} Sample.orderly_guided).1 3 hlength s' h⟩

/-- **A rule that starts ahead** sees an addition of its chunk once more, and this is a fatal error. -/
theorem run_crowded : ∃ e s', run Sample.crowded (start {}) = .error e s' ∧ e.isFatal = true := by
  have hrun : (run Sample.crowded).value (start {}) =
      .error (.inconsistent "adding context `ann` to `visitor` twice") := by
    rw [Sample.crowded, String.toList_ofList]
    decide +kernel
  obtain ⟨s', h⟩ := exists_of_value_error hrun
  exact ⟨_, s', h, rfl⟩

end Session

end RuleMonitor
