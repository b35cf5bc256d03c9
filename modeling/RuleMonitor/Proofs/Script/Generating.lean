import RuleMonitor.Proofs.Facts.Recording
import RuleMonitor.Proofs.Script.Drawing

/-!
# Changes that are generated

A workload only asks its roster for what the roster can give: it adds a context, or it removes or updates
one that is live, whatever numbers are drawn. What the roster may still refuse is a name: attributes are
drawn for all that a pattern declares, and a pattern may declare `name`. Then two live contexts could be
called the same, or one could be renamed, and the change fails. Otherwise none does, and any number of
changes apply one after the other to what was live before.

* `Workload.Picks`: an operation that is asked for; **`Workload.change_eq`**: it is all that is done.
* `Roster.Reached`: rosters that scripts and workloads lead to.
* `Workload.Admits`, `Workload.Misnames`: a change that is valid, and a refusal of a name.
* **`Workload.change_valid`**: the next change.
* **`Workload.changes_valid`**: the next changes.
* `Workload.changes_misname`: a pattern that declares `name`.
-/

namespace RuleMonitor

open Std (ExtTreeMap)

open Routine

/-! ## Refusals of the roster -/

namespace Roster

variable {r r' : Roster} {e : Failure} {id : Nat} {a : Attributes}

theorem add_error {p : String} (h : add p a r = .error e r') :
    ∃ name, a["name"]? = some name ∧ (r.byName? name).isSome = true ∧
      e = .of (.plain s!"a live context is already called `{name}`") := by
  unfold add at h
  rw [get_bind] at h
  cases hn : Context.attribute? ⟨r.next, a⟩ "name" with
  | none =>
    simp only [hn] at h
    cases h
  | some name =>
    simp only [hn] at h
    split_ifs at h with htaken
    · cases h
      rw [ExtTreeMap.contains_eq_isSome_getElem?] at htaken
      exact ⟨name, hn, htaken, rfl⟩
    · cases h

theorem remove_error (h : remove id r = .error e r') : r.live[id]? = none := by
  unfold remove at h
  rw [get_bind] at h
  cases hd : r.live[id]? with
  | none => rfl
  | some entry =>
    simp only [hd] at h
    cases h

/-- Only what is not live cannot be updated, and nothing can be renamed. -/
theorem update_error {p : String} {c : Context} (hlive : r.live[id]? = some (p, c))
    (h : update id a r = .error e r') :
    a["name"]?.isSome = true ∧ e = .of (.plain s!"cannot rename context `{c.name}`") := by
  unfold update at h
  rw [get_bind] at h
  simp only [hlive] at h
  split_ifs at h with hrenames
  · cases h
    refine ⟨Option.isSome_iff_ne_none.mpr fun hnone => ?_, rfl⟩
    rw [renames, hnone] at hrenames
    cases hrenames
  · cases h

theorem mem_liveIds {p : String} : id ∈ r.liveIds p ↔ ∃ c, r.live[id]? = some (p, c) := by
  unfold liveIds
  simp only [List.mem_map, List.mem_filter, decide_eq_true_eq, Prod.exists, exists_and_right,
    exists_eq_right, ExtTreeMap.mem_toList_iff_getElem?_eq_some]

end Roster

namespace Workload

variable {G : Type} [RandomSource G] {w w' : Workload G} {x : Routine Roster Change} {c : Change}
  {e : Failure}

/-! ## What is asked for -/

/-- The operations that a change of some patterns can come from. -/
inductive Picks (patterns : List (String × List String)) (r : Roster) : Routine Roster Change → Prop
  /-- Only attributes that the pattern declares are drawn. -/
  | addition {p : String} {names : List String} {drawn : Attributes} (hp : (p, names) ∈ patterns)
      (hdrawn : ∀ name, drawn[name]?.isSome = true → name ∈ names) : Picks patterns r (Roster.add p drawn)
  | deletion {p : String} {names : List String} {id : Nat} (hp : (p, names) ∈ patterns)
      (hid : id ∈ r.liveIds p) : Picks patterns r (Roster.remove id)
  | update {p : String} {names : List String} {id : Nat} {name value : String}
      (hp : (p, names) ∈ patterns) (hid : id ∈ r.liveIds p) (hname : name ∈ names) :
      Picks patterns r (Roster.update id ((∅ : Attributes).insert name value))

theorem attributes_ok {values : Nat} (hvalues : 0 < values) (names : List String) :
    ∀ (drawn : Attributes) (w : Workload G), ∃ drawn' g,
      attributes values names drawn w = .ok drawn' { w with generator := g } ∧
      ∀ name, drawn'[name]?.isSome = true → drawn[name]?.isSome = true ∨ name ∈ names := by
  induction names with
  | nil => exact fun drawn w => ⟨drawn, w.generator, rfl, fun _ h => .inl h⟩
  | cons first names ih =>
    intro drawn w
    obtain ⟨k, g, hk⟩ := rolls_below (G := G) hvalues w
    obtain ⟨drawn', g', hg', hdrawn⟩ := ih (drawn.insert first (toString k)) { w with generator := g }
    refine ⟨drawn', g', (bind_ok hk).trans hg', fun name h => ?_⟩
    rcases hdrawn name h with h | h
    · rw [Map.getElem?_insert] at h
      split_ifs at h with hfirst
      · exact .inr (hfirst ▸ List.mem_cons_self)
      · exact .inl h
    · exact .inr (List.mem_cons_of_mem _ h)

theorem addition_eq {p : String} {names : List String} (hp : (p, names) ∈ w.patterns) :
    ∃ x g, Picks w.patterns w.roster x ∧
      addition p names w = onRoster x { w with generator := g } := by
  obtain ⟨drawn, g, hg, hdrawn⟩ := attributes_ok w.values_pos names ∅ w
  refine ⟨_, g, .addition hp fun name h => ?_, bind_ok hg⟩
  refine (hdrawn name h).resolve_left fun hnone => ?_
  rw [ExtTreeMap.getElem?_empty] at hnone
  cases hnone

theorem update_eq {p : String} {names : List String} {id : Nat} (hp : (p, names) ∈ w.patterns)
    (hid : id ∈ w.roster.liveIds p) (hnames : 0 < names.length) :
    ∃ x g, Picks w.patterns w.roster x ∧ update id names w = onRoster x { w with generator := g } := by
  obtain ⟨k, g, hk⟩ := rolls_below (G := G) hnames w
  obtain ⟨v, g', hv⟩ := rolls_below (G := G) w.values_pos { w with generator := g }
  exact ⟨_, g', .update hp hid (List.getElem_mem k.isLt), (bind_ok hk).trans (bind_ok hv)⟩

theorem change_of_nil (h : w.patterns = []) : change w = .ok none w := by
  have hnil : w.patterns.isEmpty = true := List.isEmpty_iff.mpr h
  unfold change
  rw [get_bind, if_pos hnil]
  rfl

/-- **All that the next change is**, if there is any pattern, is an operation on the roster, after some
numbers were drawn. -/
theorem change_eq (h : w.patterns ≠ []) : ∃ x g, Picks w.patterns w.roster x ∧
    change w = (do return some (← onRoster x)) { w with generator := g } := by
  have hsome : w.patterns.isEmpty = false := List.isEmpty_eq_false_iff.mpr h
  obtain ⟨k, g₁, hk⟩ := rolls_below (G := G) (List.length_pos_iff.mpr h) w
  obtain ⟨roll, g₂, hroll⟩ := rolls_roll { w with generator := g₁ }
  have hp : w.patterns[k] ∈ w.patterns := List.getElem_mem k.isLt
  unfold change
  rw [get_bind, hsome, if_neg Bool.false_ne_true, bind_ok hk]
  revert hp
  generalize w.patterns[k] = entry
  intro hp
  obtain ⟨p, names⟩ := entry
  dsimp only
  rw [bind_ok hroll]
  by_cases hadd : (roll < 5 || (w.roster.liveIds p).isEmpty) = true
  · rw [if_pos hadd]
    obtain ⟨x, g, hx, heq⟩ := addition_eq (w := { w with generator := g₂ }) hp
    exact ⟨x, g, hx, bind_eq_bind heq⟩
  rw [if_neg hadd]
  have hlive : 0 < (w.roster.liveIds p).length := List.length_pos_iff.mpr fun hnil =>
    hadd (by rw [hnil, List.isEmpty_nil, Bool.or_true])
  obtain ⟨i, g₃, hi⟩ := rolls_below (G := G) hlive { w with generator := g₂ }
  have hid : (w.roster.liveIds p)[i] ∈ w.roster.liveIds p := List.getElem_mem i.isLt
  rw [bind_ok hi]
  by_cases hdelete : (roll < 8 || names.isEmpty) = true
  · rw [if_pos hdelete]
    exact ⟨_, g₃, .deletion hp hid, rfl⟩
  rw [if_neg hdelete]
  have hnames : 0 < names.length := List.length_pos_iff.mpr fun hnil =>
    hdelete (by rw [hnil, List.isEmpty_nil, Bool.or_true])
  obtain ⟨x, g, hx, heq⟩ := update_eq (w := { w with generator := g₃ }) hp hid hnames
  exact ⟨x, g, hx, bind_eq_bind heq⟩

/-! ## What the roster answers -/

/-- The change is of one of the patterns. As an addition it gives out the next identity, which no live
context has; otherwise its context is live, and of the pattern. -/
structure Admits (patterns : List (String × List String)) (r : Roster) (c : Change) : Prop where
  declared : c.pattern ∈ patterns.map Prod.fst
  fresh : c.kind = .addition → c.id = r.next ∧ r.patternOf? c.id = none
  live : c.kind ≠ .addition → r.patternOf? c.id = some c.pattern

/-- A refusal of a name: one of the patterns declares `name`, and the name that was drawn is taken, or is
not the one that the context has. -/
inductive Misnames (patterns : List (String × List String)) (r : Roster) : Failure → Prop
  | taken {p : String} {names : List String} {name : String} (hp : (p, names) ∈ patterns)
      (hname : "name" ∈ names) (h : (r.byName? name).isSome = true) :
      Misnames patterns r (.of (.plain s!"a live context is already called `{name}`"))
  | renamed {p : String} {names : List String} {id : Nat} {c : Context} (hp : (p, names) ∈ patterns)
      (hname : "name" ∈ names) (h : r.live[id]? = some (p, c)) :
      Misnames patterns r (.of (.plain s!"cannot rename context `{c.name}`"))

variable {patterns : List (String × List String)} {r r' : Roster} {P : Pools}

theorem Misnames.declares (h : Misnames patterns r e) : ∃ entry ∈ patterns, "name" ∈ entry.2 := by
  cases h with
  | taken hp hname => exact ⟨_, hp, hname⟩
  | renamed hp hname => exact ⟨_, hp, hname⟩

theorem admits_of_moves (hr : r.Holds P) (hm : r.Moves c r') (hp : c.pattern ∈ patterns.map Prod.fst) :
    Admits patterns r c := by
  cases hm with
  | @addition p d names hid =>
    refine ⟨hp, fun _ => ⟨hid, ?_⟩, fun h => absurd rfl h⟩
    change r.patternOf? d.id = none
    rw [Roster.patternOf?, Option.map_eq_none_iff, Option.eq_none_iff_forall_ne_some]
    exact fun entry hlive => Nat.lt_irrefl _ (hid ▸ hr.given d.id entry.1 entry.2 hlive)
  | @deletion id p d names hlive =>
    refine ⟨hp, fun h => (by cases h), fun _ => ?_⟩
    obtain rfl : d.id = id := hr.keyed id p d hlive
    change r.patternOf? d.id = some p
    rw [Roster.patternOf?, hlive]
    rfl
  | @update id p old new hlive hid =>
    refine ⟨hp, fun h => (by cases h), fun _ => ?_⟩
    obtain rfl : new.id = id := hid.trans (hr.keyed id p old hlive)
    change r.patternOf? new.id = some p
    rw [Roster.patternOf?, hlive]
    rfl

/-- **What is asked for** moves the roster by a change of one of the patterns, unless a name is refused. -/
theorem Picks.answers (hx : Picks patterns r x) :
    (∃ c r', x r = .ok c r' ∧ r.Moves c r' ∧ c.pattern ∈ patterns.map Prod.fst) ∨
      ∃ e, x r = .error e r ∧ Misnames patterns r e := by
  have hmem : ∀ {p : String} {names : List String}, (p, names) ∈ patterns →
      p ∈ patterns.map Prod.fst := fun hp => List.mem_map_of_mem hp
  cases hx with
  | @addition p names drawn hp hdrawn =>
    cases h : Roster.add p drawn r with
    | ok c r' =>
      obtain ⟨hm, hc⟩ := (Roster.operates_add p drawn).ok h
      exact .inl ⟨c, r', rfl, hm, hc ▸ hmem hp⟩
    | error e r' =>
      obtain ⟨rfl, -⟩ := (Roster.operates_add p drawn).error h
      obtain ⟨name, hname, htaken, rfl⟩ := Roster.add_error h
      exact .inr ⟨_, rfl, .taken hp (hdrawn "name" (by rw [hname]; rfl)) htaken⟩
  | @deletion p names id hp hid =>
    obtain ⟨d, hlive⟩ := Roster.mem_liveIds.mp hid
    cases h : Roster.remove id r with
    | ok c r' =>
      obtain ⟨hm, hc⟩ := (Roster.operates_remove id).ok h
      rw [Roster.patternOf?, hlive] at hc
      exact .inl ⟨c, r', rfl, hm, Option.some.inj hc ▸ hmem hp⟩
    | error e r' => cases hlive.symm.trans (Roster.remove_error h)
  | @update p names id name value hp hid hname =>
    obtain ⟨d, hlive⟩ := Roster.mem_liveIds.mp hid
    cases h : Roster.update id ((∅ : Attributes).insert name value) r with
    | ok c r' =>
      obtain ⟨hm, hc⟩ := (Roster.operates_update id _).ok h
      rw [Roster.patternOf?, hlive] at hc
      exact .inl ⟨c, r', rfl, hm, Option.some.inj hc ▸ hmem hp⟩
    | error e r' =>
      obtain ⟨rfl, -⟩ := (Roster.operates_update id _).error h
      obtain ⟨hdrawn, rfl⟩ := Roster.update_error hlive h
      refine .inr ⟨_, rfl, .renamed hp ?_ hlive⟩
      rw [Map.getElem?_insert] at hdrawn
      split_ifs at hdrawn with hcalled
      · exact hcalled ▸ hname
      · rw [ExtTreeMap.getElem?_empty] at hdrawn
        cases hdrawn

/-- **The next change** is none if there is no pattern. Otherwise it is of one of the patterns and moves the
roster, unless a name is refused. -/
theorem change_answers (w : Workload G) : (w.patterns = [] ∧ change w = .ok none w) ∨
    (w.patterns ≠ [] ∧ ∃ c w', change w = .ok (some c) w' ∧ w'.patterns = w.patterns ∧
      w.roster.Moves c w'.roster ∧ c.pattern ∈ w.patterns.map Prod.fst) ∨
    ∃ e w', change w = .error e w' ∧ w'.roster = w.roster ∧ Misnames w.patterns w.roster e := by
  by_cases hne : w.patterns = []
  · exact .inl ⟨hne, change_of_nil hne⟩
  obtain ⟨x, g, hx, heq⟩ := change_eq hne
  rw [heq]
  rcases hx.answers with ⟨c, r', hc, hm, hp⟩ | ⟨e, he, hnames⟩
  · have hroster : onRoster (G := G) x { w with generator := g } =
        .ok c { w with generator := g, roster := r' } := onPart_ok hc
    exact .inr (.inl ⟨hne, c, _, bind_ok hroster, rfl, hm, hp⟩)
  · have hroster : onRoster (G := G) x { w with generator := g } =
        .error e { w with generator := g } := onPart_error he
    exact .inr (.inr ⟨e, _, bind_error hroster, rfl, hnames⟩)

/-- **The next change is valid**, unless a name is refused. -/
theorem change_valid (hP : w.roster.Holds P) :
    (∀ w', change w = .ok none w' ↔ w.patterns = [] ∧ w' = w) ∧
    (∀ c w', change w = .ok (some c) w' → Admits w.patterns w.roster c) ∧
    ∀ e w', change w = .error e w' → Misnames w.patterns w.roster e ∧ w'.roster = w.roster := by
  rcases change_answers w with ⟨hnil, h⟩ | ⟨hne, c, w₁, h, -, hm, hp⟩ | ⟨e, w₁, h, hroster, hnames⟩
  · rw [h]
    refine ⟨fun w' => ⟨fun hw => ?_, fun hw => by rw [hw.2]⟩, nofun, nofun⟩
    cases hw
    exact ⟨hnil, rfl⟩
  · rw [h]
    refine ⟨fun w' => iff_of_false nofun fun hw => hne hw.1, fun c' w' hc => ?_, nofun⟩
    cases hc
    exact admits_of_moves hP hm hp
  · rw [h]
    have hne : w.patterns ≠ [] := fun hnil => by
      obtain ⟨entry, hentry, -⟩ := hnames.declares
      rw [hnil] at hentry
      cases hentry
    refine ⟨fun w' => iff_of_false nofun fun hw => hne hw.1, nofun, fun e' w' he => ?_⟩
    cases he
    exact ⟨hnames, hroster⟩

end Workload

/-! ## Rosters that are reached -/

/-- Scripts that are read and changes that are drawn lead to the roster from the empty one. -/
inductive Roster.Reached : Roster → Prop
  | empty : Reached {}
  | read {d : Declarations} (h : d.roster.Reached) (text : List Char) (lineOffset : Nat) :
      Reached (d.parse text lineOffset).declarations.roster
  | drawn {G : Type} [RandomSource G] {w : Workload G} (h : w.roster.Reached) :
      Reached (Workload.change.after w).roster

theorem Roster.Reached.holds {r : Roster} (h : r.Reached) : ∃ P, r.Holds P := by
  induction h with
  | empty => exact ⟨∅, holds_empty⟩
  | @read d _ text lineOffset ih =>
    obtain ⟨P, hP⟩ := ih
    obtain ⟨Q, -, hQ⟩ := (d.parse_logs text lineOffset).1.leads P hP
    exact ⟨Q, hQ⟩
  | @drawn G _ w _ ih =>
    obtain ⟨P, hP⟩ := ih
    cases h : Workload.change w with
    | ok c w' =>
      obtain ⟨Q, -, hQ⟩ := Workload.draws_change.ok h P hP
      exact ⟨Q, by rwa [after_eq h]⟩
    | error e w' =>
      rw [after_eq_of_error h, (Workload.draws_change.error h).1]
      exact ⟨P, hP⟩

namespace Workload

variable {G : Type} [RandomSource G] {w w' : Workload G}

/-! ## Runs -/

/-- `n` changes are drawn, unless there is no pattern. They apply in order to every store with the live
contexts of the roster, which then has those of the roster behind them. -/
structure Delivers (w : Workload G) (n : Nat) (cs : List Change) (w' : Workload G) : Prop where
  drawn : changes n w = .ok cs w'
  length : cs.length = if w.patterns = [] then 0 else n
  patterns : w'.patterns = w.patterns
  reached : w'.roster.Reached
  applies : ∀ s : FactStore, w.roster.Holds s.pools →
    ∃ P, cs.forM FactStore.apply s = .ok ⟨⟩ { s with pools := P } ∧ w'.roster.Holds P

theorem delivers_nil (h : w.roster.Reached) {n : Nat} (hn : n = 0 ∨ w.patterns = []) :
    w.Delivers n [] w where
  drawn := by
    cases n with
    | zero => rfl
    | succ n => exact bind_ok (change_of_nil (hn.resolve_left (Nat.succ_ne_zero n)))
  length := by
    split_ifs with hpatterns
    · rfl
    · exact (hn.resolve_right hpatterns).symm
  patterns := rfl
  reached := h
  applies s hs := ⟨s.pools, rfl, hs⟩

theorem Delivers.cons {w₁ : Workload G} {n : Nat} {c : Change} {cs : List Change}
    (hne : w.patterns ≠ []) (hc : change w = .ok (some c) w₁) (hpatterns : w₁.patterns = w.patterns)
    (hm : w.roster.Moves c w₁.roster) (h : w₁.Delivers n cs w') : w.Delivers (n + 1) (c :: cs) w' where
  drawn := by
    rw [changes, bind_ok hc]
    exact bind_ok h.drawn
  length := by
    rw [List.length_cons, h.length, hpatterns, if_neg hne, if_neg hne]
  patterns := h.patterns.trans hpatterns
  reached := h.reached
  applies s hs := by
    obtain ⟨hvalid, hstep⟩ := hs.moves hm
    obtain ⟨P, hP, hholds⟩ := h.applies { s with pools := s.pools.step c } hstep
    refine ⟨P, ?_, hholds⟩
    change (FactStore.apply c >>= fun _ => cs.forM FactStore.apply) s = _
    rw [bind_ok (FactStore.apply_ok hvalid), hP]

/-- Changes are drawn up to one that fails because a name is refused. -/
structure StopsAt (w : Workload G) (n m : Nat) (cs : List Change) (e : Failure) : Prop where
  before : m < n
  fails : ∃ w₁ w', w.Delivers m cs w₁ ∧ change w₁ = .error e w' ∧ w'.roster = w₁.roster ∧
    Misnames w.patterns w₁.roster e ∧ changes n w = .error e w'

/-- **The next changes** are all drawn, or up to one whose name is refused. -/
theorem changes_answers (n : Nat) : ∀ {w : Workload G}, w.roster.Reached →
    (∃ cs w', w.Delivers n cs w') ∨ ∃ m cs e, w.StopsAt n m cs e := by
  induction n with
  | zero => exact fun {w} h => .inl ⟨[], w, delivers_nil h (.inl rfl)⟩
  | succ n ih =>
    intro w h
    rcases change_answers w with ⟨hnil, -⟩ | ⟨hne, c, w₁, hc, hpatterns, hm, -⟩ | ⟨e, w₁, he, hstay, hnames⟩
    · exact .inl ⟨[], w, delivers_nil h (.inr hnil)⟩
    · have hreached : w₁.roster.Reached := after_eq hc ▸ h.drawn
      rcases ih hreached with ⟨cs, w', hcs⟩ | ⟨m, cs, e, hlt, w₂, w', hcs, he, hstay, hnames, hall⟩
      · exact .inl ⟨c :: cs, w', hcs.cons hne hc hpatterns hm⟩
      · have hrest : changes (n + 1) w = .error e w' := by
          rw [changes, bind_ok hc]
          exact bind_error hall
        exact .inr ⟨m + 1, c :: cs, e, Nat.succ_lt_succ hlt, w₂, w', hcs.cons hne hc hpatterns hm, he,
          hstay, hpatterns ▸ hnames, hrest⟩
    · exact .inr ⟨0, [], e, Nat.succ_pos n, w, w₁, delivers_nil h (.inl rfl), he, hstay, hnames,
        bind_error he⟩

/-- **Workloads are valid up to names.** Take any source of random numbers, any patterns with any attributes,
any bound of the values, and a roster that scripts and workloads led to. There is no next change if and only
if there is no pattern. A change is of one of the patterns, and valid for the live contexts. If it fails, one
of the patterns declares `name`, the name that was drawn is refused, and the roster stays as it is. Any number
of changes is drawn, or as many as come before one that fails so; they apply in order to a store with the live
contexts, which then has those of the roster behind them. Where no pattern declares `name`, nothing fails. -/
theorem changes_valid {w : Workload G} (h : w.roster.Reached) :
    (∀ w', change w = .ok none w' ↔ w.patterns = [] ∧ w' = w) ∧
    (∀ c w', change w = .ok (some c) w' → Admits w.patterns w.roster c) ∧
    (∀ e w', change w = .error e w' → Misnames w.patterns w.roster e ∧ w'.roster = w.roster) ∧
    (∀ n, (∃ cs w', w.Delivers n cs w') ∨ ∃ m cs e, w.StopsAt n m cs e) ∧
    ((∀ entry ∈ w.patterns, "name" ∉ entry.2) →
      (∃ c w', change w = .ok c w') ∧ ∀ n, ∃ cs w', w.Delivers n cs w') := by
  obtain ⟨P, hP⟩ := h.holds
  obtain ⟨hnone, hsome, herror⟩ := change_valid hP
  have hmisnames : ∀ {e : Failure} {r : Roster}, (∀ entry ∈ w.patterns, "name" ∉ entry.2) →
      ¬ Misnames w.patterns r e := fun hnames hmis => by
    obtain ⟨entry, hentry, hname⟩ := hmis.declares
    exact hnames entry hentry hname
  refine ⟨hnone, hsome, herror, fun n => changes_answers n h, fun hnames => ⟨?_, fun n => ?_⟩⟩
  · cases hc : change w with
    | ok c w' => exact ⟨c, w', rfl⟩
    | error e w' => exact absurd (herror e w' hc).1 (hmisnames hnames)
  · rcases changes_answers n h with hall | ⟨m, cs, e, -, w₁, w', -, -, -, hmis, -⟩
    · exact hall
    · exact absurd hmis (hmisnames hnames)

end Workload

/-! ## A sample -/

namespace Sample

/-- The patterns that a script declares. -/
def declared (script : String) : ExtTreeMap String (List String) :=
  (({} : Declarations).parse script.toList 0).declarations.patterns

/-- Changes of sensors with a state. -/
def sensors : Workload Generator :=
  .start 7 (declared "(pattern sensor state)") 4 {}

/-- Changes of sensors with a name, of which there is one. -/
def namesakes : Workload Generator :=
  .start 1 (declared "(pattern sensor name)") 1 {}

/-- A change of a sensor. -/
def reading (kind : ChangeKind) (id : Nat) (state : String) : Change :=
  ⟨kind, "sensor", id, (∅ : Attributes).insert "state" state⟩

theorem changes_value : sensors.patterns = [("sensor", ["state"])] ∧
    (Workload.changes 3).value sensors = .ok
      [reading .addition 0 "2", reading .addition 1 "0", reading .update 1 "1"] ∧
    namesakes.patterns = [("sensor", ["name"])] ∧
    (Workload.changes 3).value namesakes =
      .error (.of (.plain "a live context is already called `0`")) := by decide +kernel

end Sample

theorem Workload.changes_valid_sample : ∃ cs w', Sample.sensors.Delivers 3 cs w' ∧
    cs = [Sample.reading .addition 0 "2", Sample.reading .addition 1 "0", Sample.reading .update 1 "1"] := by
  obtain ⟨-, -, -, -, hnames⟩ := changes_valid (w := Sample.sensors) .empty
  obtain ⟨hdeclared, hchanges, -⟩ := Sample.changes_value
  rw [hdeclared] at hnames
  obtain ⟨cs, w', h⟩ := (hnames (by decide)).2 3
  obtain ⟨_, hvalue⟩ := exists_of_value hchanges
  obtain ⟨rfl, -⟩ := EStateM.Result.ok.inj (hvalue.symm.trans h.drawn)
  exact ⟨_, w', h, rfl⟩

/-- **A pattern that declares `name`.** The second sensor would be called like the first one, which fails. -/
theorem Workload.changes_misname : Sample.namesakes.roster.Reached ∧
    Sample.namesakes.patterns = [("sensor", ["name"])] ∧
    ∃ w', changes 3 Sample.namesakes =
      .error (.of (.plain "a live context is already called `0`")) w' := by
  obtain ⟨-, -, hdeclared, hchanges⟩ := Sample.changes_value
  exact ⟨.empty, hdeclared, exists_of_value_error hchanges⟩

end RuleMonitor
