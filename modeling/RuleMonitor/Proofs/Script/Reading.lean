import RuleMonitor.Proofs.Facts.Rosters
import RuleMonitor.Script.Item

/-!
# Reading items

Reading moves a cursor and drafts rules. What is declared only moves with an item that is read, and then
nothing keeps this item from being among the items, except that declarations of patterns are none of them.
So the items of a text, even of one that cannot be read to its end, are a log of what is declared: each of
them was read from what the items before it led to. No failure to read a text is fatal.

* `Parser.keeps_formula`, `Parser.keeps_live`, …: the parts of items leave declarations and items alone.
* `Declarations.Step`, `Declarations.Log`: one item, and the items read one after the other;
  `Declarations.Log.leads`: where the changes among them lead.
* **`Parser.reads_item`**: one item; **`Declarations.parse_logs`**: all items of a text.
-/

namespace RuleMonitor

open Std (ExtTreeMap)

open Routine

namespace Parser

/-- What is declared, and the items read so far. -/
def record (p : Parser) : Declarations × List Item :=
  (p.declarations, p.items)

theorem keeps_read {α : Type} {x : Routine Cursor α} (hx : Cursor.Moves x) : Keeps Failure.Mild record (read x) := by
  unfold read
  refine keeps_onPart ?_ hx
  exact fun _ _ _ => rfl

/-! ## Parts of items -/

theorem keeps_position : Keeps Failure.Mild record position :=
  keeps_get.bind fun _ => keeps_pure _

theorem keeps_fuel : Keeps Failure.Mild record fuel :=
  keeps_get.bind fun _ => keeps_pure _

theorem keeps_failAt {α : Type} (position : Nat) (message : String) :
    Keeps Failure.Mild record (failAt position message : Routine Parser α) :=
  keeps_read (Cursor.keeps_failAt position message)

theorem keeps_failWithin {α : Type} (position : Nat) (message : String) (e : Failure) :
    Keeps Failure.Mild record (failWithin position message e : Routine Parser α) := by
  cases e with
  | crash c => exact keeps_throw rfl
  | error e =>
    refine keeps_get.bind fun p => ?_
    cases h : p.cursor.errorAt position message with
    | crash c => exact keeps_throw rfl
    | error outer =>
      obtain ⟨err, rfl⟩ := Cursor.report_parse h
      exact keeps_throw rfl

theorem keeps_skip : Keeps Failure.Mild record skip :=
  keeps_read Cursor.moves_skip

theorem keeps_close : Keeps Failure.Mild record close :=
  keeps_skip.bind fun _ => keeps_read (Cursor.moves_tag _)

theorem keeps_nextName : Keeps Failure.Mild record nextName :=
  keeps_skip.bind fun _ => keeps_read Cursor.moves_name

theorem keeps_nextValue : Keeps Failure.Mild record nextValue :=
  keeps_skip.bind fun _ => keeps_read Cursor.moves_value

theorem keeps_pattern : Keeps Failure.Mild record pattern :=
  keeps_nextName.bind fun _ => keeps_get.bind fun _ =>
    (keeps_failAt _ _).check (keeps_pure _)

theorem keeps_live (pattern : Option String) : Keeps Failure.Mild record (live pattern) := by
  refine (keeps_read Cursor.moves_value).bind fun found => keeps_get.bind fun p => ?_
  dsimp only
  cases p.declarations.roster.byName? found.2 with
  | none => exact keeps_failAt _ _
  | some id =>
    cases pattern with
    | some pattern => exact (keeps_failAt _ _).check (keeps_pure _)
    | none => exact keeps_pure _

theorem keeps_attributesFrom (fuel : Nat) :
    ∀ attributes, Keeps Failure.Mild record (attributesFrom fuel attributes) := by
  induction fuel with
  | zero => exact fun _ => keeps_pure _
  | succ fuel ih =>
    exact fun attributes => (keeps_read (Cursor.moves_tag? _)).bind fun _ => (keeps_pure _).ite <|
      keeps_nextName.bind fun _ => keeps_nextValue.bind fun _ => keeps_close.bind fun _ =>
        keeps_skip.bind fun _ => (keeps_failAt _ _).check <| (keeps_failAt _ _).check (ih _)

theorem keeps_attributes : Keeps Failure.Mild record attributes :=
  keeps_skip.bind fun _ => keeps_fuel.bind fun fuel => keeps_attributesFrom fuel ∅

theorem keeps_namesFrom (fuel : Nat) : ∀ names, Keeps Failure.Mild record (namesFrom fuel names) := by
  induction fuel with
  | zero => exact fun _ => keeps_pure _
  | succ fuel ih =>
    intro names
    refine (keeps_read Cursor.moves_name?).bind fun found => ?_
    cases found with
    | none => exact keeps_pure _
    | some found => exact keeps_skip.bind fun _ => ih _

/-! ## Formulas -/

theorem keeps_paramsFrom (fuel : Nat) : ∀ params, Keeps Failure.Mild record (paramsFrom fuel params) := by
  induction fuel with
  | zero => exact fun _ => keeps_pure _
  | succ fuel ih =>
    exact fun params => (keeps_read (Cursor.moves_tag? _)).bind fun _ => (keeps_pure _).ite <|
      keeps_nextValue.bind fun _ => keeps_nextName.bind fun _ => keeps_close.bind fun _ =>
        keeps_skip.bind fun _ => ih _

theorem keeps_onDraft {α : Type} {x : Routine Draft α} (hx : Keeps Failure.Mild (fun _ => ()) x) :
    Keeps Failure.Mild record (onDraft x) := by
  unfold onDraft
  refine keeps_onPart ?_ hx
  exact fun _ _ _ => rfl

theorem keeps_push (shape : Shape) : Keeps Failure.Mild (fun _ => ()) (Draft.push shape) :=
  keeps_get.bind fun _ => (keeps_set fun _ => rfl).bind fun _ => keeps_pure _

theorem keeps_application : Keeps Failure.Mild record application :=
  keeps_nextName.bind fun _ => keeps_skip.bind fun _ => keeps_fuel.bind fun fuel =>
    (keeps_paramsFrom fuel []).bind fun _ => keeps_onDraft (keeps_push _)

theorem keeps_repairMark (marks : List (String × List Repair)) : Keeps Failure.Mild record (repairMark marks) := by
  induction marks with
  | nil => exact keeps_pure _
  | cons mark rest ih =>
    exact (keeps_read (Cursor.moves_word? _)).bind fun _ => (keeps_pure _).ite ih

theorem keeps_marksFrom (fuel : Nat) : ∀ marks, Keeps Failure.Mild record (marksFrom fuel marks) := by
  induction fuel with
  | zero => exact fun _ => keeps_pure _
  | succ fuel ih =>
    intro marks
    refine keeps_skip.bind fun _ => keeps_position.bind fun position =>
      (keeps_read (Cursor.moves_word? _)).bind fun _ => Keeps.ite ?_ ?_
    · exact keeps_nextName.bind fun _ => keeps_nextName.bind fun _ => ih _
    · refine (keeps_repairMark _).bind fun found => ?_
      cases found with
      | some repairs => exact ih _
      | none => exact keeps_get.bind fun _ => (keeps_failAt _ _).check (keeps_pure _)

theorem keeps_mark (node : Nat) (pattern : String) (marks : Marks) :
    Keeps Failure.Mild record (mark node pattern marks) := by
  have hdisable : Keeps Failure.Mild record (marks.disabled.forM fun repair =>
      onDraft (Draft.disable node repair pattern)) :=
    keeps_forM (fun _ => keeps_onDraft (keeps_modify fun _ => rfl)) _
  unfold mark
  cases marks.filter with
  | none => exact hdisable
  | some filter =>
    obtain ⟨position, name, dep⟩ := filter
    refine (keeps_onPart ?_ (keeps_any _)).attempt.bind fun found => ?_
    · exact fun _ _ _ => rfl
    cases found with
    | ok u => exact hdisable
    | error e => exact (keeps_failWithin _ _ _).bind fun _ => hdisable

theorem keeps_quantifier (kind : QuantifierKind) {body : Routine Parser Nat} (h : Keeps Failure.Mild record body) :
    Keeps Failure.Mild record (quantifier kind body) :=
  keeps_nextName.bind fun _ => keeps_pattern.bind fun _ => keeps_fuel.bind fun fuel =>
    (keeps_marksFrom fuel {}).bind fun _ => h.bind fun _ =>
      (keeps_onDraft (keeps_push _)).bind fun _ => (keeps_mark _ _ _).bind fun _ => keeps_pure _

theorem keeps_binary (op : Connective) {operand : Routine Parser Nat} (h : Keeps Failure.Mild record operand) :
    Keeps Failure.Mild record (binary op operand) :=
  keeps_skip.bind fun _ => h.bind fun _ => keeps_skip.bind fun _ => h.bind fun _ =>
    keeps_onDraft (keeps_push _)

theorem keeps_negation {operand : Routine Parser Nat} (h : Keeps Failure.Mild record operand) :
    Keeps Failure.Mild record (negation operand) :=
  keeps_skip.bind fun _ => h.bind fun _ => keeps_onDraft (keeps_push _)

theorem keeps_word? {α : Type} (text : String) {x y : Routine Parser α} (hx : Keeps Failure.Mild record x)
    (hy : Keeps Failure.Mild record y) : Keeps Failure.Mild record (do if ← read (Cursor.word? text) then x else y) :=
  (keeps_read (Cursor.moves_word? text)).bind fun _ => hx.ite hy

theorem keeps_connective {formula : Routine Parser Nat} (h : Keeps Failure.Mild record formula) :
    Keeps Failure.Mild record (connective formula) :=
  keeps_position.bind fun _ =>
    keeps_word? "forall" (keeps_quantifier _ h) <|
    keeps_word? "exists" (keeps_quantifier _ h) <|
    keeps_word? "not" (keeps_negation h) <|
    keeps_word? "bfunc" keeps_application <|
    keeps_word? "and" (keeps_binary _ h) <|
    keeps_word? "or" (keeps_binary _ h) <|
    keeps_word? "implies" (keeps_binary _ h) <|
    keeps_failAt _ _

theorem keeps_formula (fuel : Nat) : Keeps Failure.Mild record (formula fuel) := by
  induction fuel with
  | zero => exact keeps_throw rfl
  | succ fuel ih =>
    exact (keeps_read (Cursor.moves_tag _)).bind fun _ => keeps_skip.bind fun _ =>
      (keeps_connective ih).bind fun _ => keeps_close.bind fun _ => keeps_pure _

end Parser

/-! ## What items come to -/

/-- The change that an item asks for. -/
def Item.change? : Item → Option Change
  | .change c => some c
  | _ => none

/-- Changes lead from the live contexts of one roster to those of another. -/
def Roster.LeadsTo (r : Roster) (changes : List Change) (r' : Roster) : Prop :=
  ∀ P, r.Holds P → ∃ Q, P.after? changes = some Q ∧ r'.Holds Q

theorem Roster.leadsTo_nil (r : Roster) : r.LeadsTo [] r :=
  fun P hP => ⟨P, rfl, hP⟩

theorem Roster.Moves.leadsTo {r r' : Roster} {c : Change} (h : r.Moves c r') : r.LeadsTo [c] r' :=
  fun P hP => ⟨P.step c, Pools.after?_cons_eq_some.mpr ⟨(hP.moves h).1, rfl⟩, (hP.moves h).2⟩

theorem Roster.LeadsTo.trans {r r₁ r₂ : Roster} {l l' : List Change} (h : r.LeadsTo l r₁)
    (h' : r₁.LeadsTo l' r₂) : r.LeadsTo (l ++ l') r₂ := fun P hP => by
  obtain ⟨Q, hQ, hr⟩ := h P hP
  obtain ⟨Q', hQ', hr'⟩ := h' Q hr
  exact ⟨Q', by rw [Pools.after?_append, hQ, Option.bind_some, hQ'], hr'⟩

namespace Declarations

variable {d d₁ d₂ d' : Declarations} {items items' : List Item}

/-- What is read between two parentheses: an item, if it asks for anything, and what is declared after it. -/
inductive Step (d : Declarations) : Option Item → Declarations → Prop
  | pattern (name : String) (attributes : List String) :
      Step d none { d with patterns := d.patterns.insert name attributes }
  /-- A rule that was built from a draft. -/
  | rule {draft : Draft} {root : Nat} {s : Sentence} (h : draft.build root = .ok s) :
      Step d (some (.rule s)) d
  /-- A change of a declared pattern, with which the roster moves. -/
  | change {c : Change} {r : Roster} (hp : d.patterns.contains c.pattern = true) (h : d.roster.Moves c r) :
      Step d (some (.change c)) { d with roster := r }
  /-- Contexts that were found by their names. -/
  | critical {ids : List Nat} (h : ∀ id ∈ ids, ∃ name, d.roster.byName? name = some id) :
      Step d (some (.critical ids)) d
  | check : Step d (some .check) d

/-- The items that are read from some declarations on, and what is declared after them. -/
inductive Log : Declarations → List Item → Declarations → Prop
  | nil (d : Declarations) : Log d [] d
  | cons {d d₁ d₂ : Declarations} {found : Option Item} {items : List Item} (h : d.Step found d₁)
      (rest : Log d₁ items d₂) : Log d (found.toList ++ items) d₂

theorem Step.log {found : Option Item} (h : d.Step found d₁) : d.Log found.toList d₁ := by
  rw [← List.append_nil found.toList]
  exact .cons h (.nil d₁)

theorem Log.trans (h : d.Log items d₁) (h' : d₁.Log items' d₂) : d.Log (items ++ items') d₂ := by
  induction h with
  | nil => exact h'
  | cons hstep _ ih =>
    rw [List.append_assoc]
    exact .cons hstep (ih h')

/-- **Each item of a log** was read from what the items before it led to. -/
theorem Log.exists_step (h : d.Log items d') : ∀ {pre : List Item} {item : Item} {post : List Item},
    items = pre ++ item :: post →
    ∃ d₁ d₂, d.Log pre d₁ ∧ d₁.Step (some item) d₂ ∧ d₂.Log post d' := by
  induction h with
  | nil => exact fun h => absurd h.symm (List.append_ne_nil_of_right_ne_nil _ (List.cons_ne_nil _ _))
  | @cons d d₁ d₂ found items hstep rest ih =>
    intro pre item post heq
    cases found with
    | none =>
      obtain ⟨e₁, e₂, hpre, he⟩ := ih heq
      exact ⟨e₁, e₂, .cons hstep hpre, he⟩
    | some first =>
      cases pre with
      | nil =>
        obtain ⟨rfl, rfl⟩ := List.cons.inj heq
        exact ⟨d, d₁, .nil d, hstep, rest⟩
      | cons _ pre =>
        obtain ⟨rfl, hrest⟩ := List.cons.inj heq
        obtain ⟨e₁, e₂, hpre, he⟩ := ih hrest
        exact ⟨e₁, e₂, .cons hstep hpre, he⟩

theorem Log.leads (h : d.Log items d') :
    d.roster.LeadsTo (items.filterMap Item.change?) d'.roster := by
  induction h with
  | nil d => exact d.roster.leadsTo_nil
  | cons hstep _ ih =>
    rw [List.filterMap_append]
    refine Roster.LeadsTo.trans ?_ ih
    cases hstep with
    | change _ hmoves => exact hmoves.leadsTo
    | pattern | rule | critical | check => exact Roster.leadsTo_nil _

theorem Log.built (h : d.Log items d') (s : Sentence) (hs : .rule s ∈ items) :
    ∃ (draft : Draft) (root : Nat), draft.build root = .ok s := by
  obtain ⟨pre, post, hitems⟩ := List.append_of_mem hs
  obtain ⟨d₁, d₂, -, hstep, -⟩ := h.exists_step hitems
  cases hstep with
  | @rule draft root _ hbuild => exact ⟨draft, root, hbuild⟩

end Declarations

namespace Parser

variable {α β : Type} {C : Declarations → Prop} {g : α → Option Item} {x : Routine Parser α}

/-- Where what is declared has a property, a computation reads the item that it answers, and moves what is
declared with it. If it fails, nothing was moved. -/
abbrev Reads (C : Declarations → Prop) (g : α → Option Item) (x : Routine Parser α) : Prop :=
  Shifts record (fun a before after => C before.1 → after.2 = before.2 ∧ before.1.Step (g a) after.1) x

theorem reads_pure {a : α} (hg : ∀ d, C d → d.Step (g a) d) : Reads C g (pure a) :=
  shifts_pure fun before hC => ⟨rfl, hg before.1 hC⟩

/-- What is read first has a property that goes with what is declared. -/
theorem Reads.given {Q : β → Declarations → Prop} {y : Routine Parser β} {f : β → Routine Parser α}
    (hy : Keeps Failure.Mild record y) (hQ : ∀ {p b p'}, y p = .ok b p' → Q b p.declarations)
    (hf : ∀ b, Reads (fun d => C d ∧ Q b d) g (f b)) : Reads C g (y >>= f) where
  ok {p a p'} h hC := by
    obtain ⟨b, p₁, h₁, h₂⟩ := bind_eq_ok.mp h
    have hp : record p₁ = record p := hy.ok h₁
    exact hp ▸ (hf b).ok h₂ (hp ▸ ⟨hC, hQ h₁⟩)
  error h := by
    rcases bind_eq_error.mp h with h | ⟨b, p₁, h₁, h₂⟩
    · exact hy.error h
    · exact ⟨((hf b).error h₂).1.trans (hy.ok h₁), ((hf b).error h₂).2⟩

/-! ## Items -/

theorem failWithin_ne_ok {position : Nat} {message : String} {e : Failure} {p p' : Parser} {a : α} :
    (failWithin position message e : Routine Parser α) p ≠ .ok a p' := by
  intro h
  cases e with
  | crash c => cases h
  | error e =>
    rw [failWithin, get_bind] at h
    cases he : p.cursor.errorAt position message with
    | crash c =>
      simp only [he] at h
      cases h
    | error outer =>
      simp only [he] at h
      cases h

theorem reads_failAt (position : Nat) (message : String) : Reads C g (failAt position message) where
  ok h := nomatch h
  error h := (keeps_failAt _ _).error h

theorem reads_failWithin (position : Nat) (message : String) (e : Failure) :
    Reads C g (failWithin position message e) where
  ok h := absurd h failWithin_ne_ok
  error h := (keeps_failWithin _ _ _).error h

theorem contains_of_pattern {p p' : Parser} {name : String} (h : pattern p = .ok name p') :
    p.declarations.patterns.contains name = true := by
  obtain ⟨⟨position, found⟩, p₁, h₁, h₂⟩ := bind_eq_ok.mp h
  have hp : p₁.declarations = p.declarations := congrArg Prod.fst (keeps_nextName.ok h₁)
  dsimp only at h₂
  rw [get_bind] at h₂
  split_ifs at h₂ with hc
  · cases h₂
  · cases h₂
    rw [← hp]
    simpa using hc

theorem exists_of_live {p p' : Parser} {q : Option String} {id : Nat} (h : live q p = .ok id p') :
    (∃ name, p.declarations.roster.byName? name = some id) ∧
      ∀ pattern ∈ q, p.declarations.roster.patternOf? id = some pattern := by
  obtain ⟨⟨position, found⟩, p₁, h₁, h₂⟩ := bind_eq_ok.mp h
  have hp : p₁.declarations = p.declarations :=
    congrArg Prod.fst ((keeps_read Cursor.moves_value).ok h₁)
  dsimp only at h₂
  rw [get_bind] at h₂
  simp only [hp] at h₂
  cases hname : p.declarations.roster.byName? found with
  | none =>
    rw [hname] at h₂
    cases h₂
  | some k =>
    rw [hname] at h₂
    cases q with
    | none =>
      cases h₂
      exact ⟨⟨_, hname⟩, nofun⟩
    | some pattern =>
      dsimp only at h₂
      split_ifs at h₂ with hpattern
      · cases h₂
      · cases h₂
        refine ⟨⟨_, hname⟩, fun q hq => ?_⟩
        obtain rfl := Option.some.inj hq
        exact not_not.mp hpattern

theorem reads_pattern {f : String → Routine Parser α}
    (hf : ∀ q, Reads (fun d => C d ∧ d.patterns.contains q = true) g (f q)) : Reads C g (pattern >>= f) :=
  Reads.given (Q := fun q d => d.patterns.contains q = true) keeps_pattern contains_of_pattern hf

/-- **A change of the roster** that succeeds is the one that is read. -/
theorem reads_changeRoster (start : Nat) {allowed : Roster → String → Prop} {x : Routine Roster Change}
    (hx : Roster.Operates allowed x)
    (hallowed : ∀ d, C d → ∀ q, allowed d.roster q → d.patterns.contains q = true) :
    Reads C (fun c => some (.change c)) (changeRoster start x) := by
  have hrun : ∀ p, (∃ c r, x p.declarations.roster = .ok c r ∧
        changeRoster start x p = .ok c { p with declarations := { p.declarations with roster := r } }) ∨
      ∃ e, changeRoster start x p = failWithin start "in this change" e p := by
    intro p
    cases h : x p.declarations.roster with
    | ok c r =>
      have hon : onRoster x p = .ok c { p with declarations := { p.declarations with roster := r } } := by
        simp only [onRoster, onPart, h]
      exact .inl ⟨c, r, rfl, bind_ok (attempt_ok hon)⟩
    | error e r =>
      obtain ⟨rfl, -⟩ := hx.error h
      have hon : onRoster x p = .error e p := by
        simp only [onRoster, onPart, h]
      exact .inr ⟨e, bind_ok (attempt_error hon)⟩
  constructor
  · intro p c p' h hC
    rcases hrun p with ⟨c', r, hr, hc⟩ | ⟨e, he⟩
    · obtain ⟨rfl, rfl⟩ := EStateM.Result.ok.inj (hc.symm.trans h)
      obtain ⟨hmoves, hq⟩ := hx.ok hr
      exact ⟨rfl, .change (hallowed _ hC _ hq) hmoves⟩
    · exact absurd (he.symm.trans h) failWithin_ne_ok
  · intro p e p' h
    rcases hrun p with ⟨c, r, -, hc⟩ | ⟨e', he⟩
    · cases hc.symm.trans h
    · exact (keeps_failWithin _ _ _).error (he.symm.trans h)

theorem reads_addition (start : Nat) : Reads C (fun c => some (.change c)) (addition start) :=
  reads_pattern fun q => .after keeps_nextValue fun _ => .after keeps_get fun _ =>
    .check (keeps_failAt _ _) <| .after keeps_attributes fun _ =>
      reads_changeRoster (C := fun d => C d ∧ d.patterns.contains q = true) start
        (Roster.operates_add _ _) fun _ hd _ hq => hq ▸ hd.2

theorem reads_onLive {f : Nat → Routine Parser Change}
    (hf : ∀ id, Reads (fun d => ∀ q, d.roster.patternOf? id = some q → d.patterns.contains q = true)
      (fun c => some (.change c)) (f id)) :
    Reads C (fun c => some (.change c)) (do
      let pattern ← pattern
      skip
      let id ← live (some pattern)
      f id) :=
  reads_pattern fun pattern => .after keeps_skip fun _ =>
    Reads.given (C := fun d => C d ∧ d.patterns.contains pattern = true)
      (Q := fun id d => d.roster.patternOf? id = some pattern) (keeps_live _)
      (fun h => (exists_of_live h).2 pattern rfl) fun id => (hf id).imp fun h hd => h fun q hq => by
        obtain rfl := Option.some.inj (hq.symm.trans hd.2)
        exact hd.1.2

theorem reads_deletion (start : Nat) : Reads C (fun c => some (.change c)) (deletion start) :=
  reads_onLive fun _ => reads_changeRoster start (Roster.operates_remove _) fun _ h => h

theorem reads_update (start : Nat) : Reads C (fun c => some (.change c)) (update start) :=
  reads_onLive fun _ => .after keeps_attributes fun _ =>
    have hchange := reads_changeRoster start (Roster.operates_update _ _) fun _ h => h
    .ite (.after keeps_position fun _ => .after (keeps_failAt _ _) fun _ => hchange) hchange

theorem reads_rule (start : Nat) : Reads C (fun s => some (.rule s)) (rule start) := by
  refine .after keeps_nextName fun name => .after keeps_skip fun _ =>
    .after (keeps_modify fun _ => rfl) fun _ => .after keeps_fuel fun fuel =>
      .after (keeps_formula fuel) fun root => .after keeps_get fun p => ?_
  cases h : p.draft.build root with
  | error e => exact reads_failWithin _ _ _
  | ok s => exact reads_pure fun d _ => .rule h

theorem reads_patternDeclaration : Reads C (fun _ => none) patternDeclaration := by
  refine .after keeps_nextName fun found => .after keeps_get fun _ => .check (keeps_failAt _ _) <|
    .after keeps_skip fun _ => .after keeps_fuel fun fuel =>
      .after (keeps_namesFrom fuel []) fun attributes => ⟨fun h _ => ?_, nofun⟩
  cases h
  exact ⟨rfl, .pattern _ _⟩

theorem keeps_criticalFrom (fuel : Nat) : ∀ ids, Keeps Failure.Mild record (criticalFrom fuel ids) := by
  induction fuel with
  | zero => exact fun _ => keeps_pure _
  | succ fuel ih =>
    intro ids
    refine keeps_get.bind fun p => ?_
    cases p.cursor.peek? with
    | none => exact keeps_pure _
    | some c =>
      exact (keeps_pure _).ite <| (keeps_live none).bind fun _ => keeps_skip.bind fun _ => ih _

theorem exists_of_criticalFrom (fuel : Nat) : ∀ {ids ids' : List Nat} {p p' : Parser},
    (∀ id ∈ ids, ∃ name, p.declarations.roster.byName? name = some id) →
    criticalFrom fuel ids p = .ok ids' p' →
    ∀ id ∈ ids', ∃ name, p.declarations.roster.byName? name = some id := by
  induction fuel with
  | zero =>
    intro ids ids' p p' hids h
    cases h
    exact hids
  | succ fuel ih =>
    intro ids ids' p p' hids h
    rw [criticalFrom, get_bind] at h
    cases hc : p.cursor.peek? with
    | none =>
      rw [hc] at h
      cases h
      exact hids
    | some c =>
      rw [hc] at h
      dsimp only at h
      split_ifs at h
      · cases h
        exact hids
      · obtain ⟨id, p₁, h₁, h₂⟩ := bind_eq_ok.mp h
        obtain ⟨u, p₂, h₂, h₃⟩ := bind_eq_ok.mp h₂
        have hp : p₂.declarations = p.declarations :=
          congrArg Prod.fst ((keeps_skip.ok h₂).trans ((keeps_live none).ok h₁))
        rw [← hp] at hids ⊢
        refine ih (List.forall_mem_append.mpr ⟨hids, ?_⟩) h₃
        rw [hp, List.forall_mem_singleton]
        exact (exists_of_live h₁).1

theorem reads_word? (text : String) {y : Routine Parser α} (hx : Reads C g x) (hy : Reads C g y) :
    Reads C g (do if ← read (Cursor.word? text) then x else y) :=
  .after (keeps_read (Cursor.moves_word? text)) fun _ => hx.ite hy

/-- **An item** moves what is declared only when it was read to its end. -/
theorem reads_item : Reads C id item := by
  have hcritical : Reads C id (do
      skip
      return some (.critical (← criticalFrom (← fuel) []))) :=
    .after keeps_skip fun _ => .after keeps_fuel fun fuel =>
      Reads.given (Q := fun ids d => ∀ id ∈ ids, ∃ name, d.roster.byName? name = some id)
        (keeps_criticalFrom fuel []) (exists_of_criticalFrom fuel nofun) fun ids =>
          reads_pure fun d hd => .critical hd.2
  exact .after keeps_position fun start =>
    reads_word? "pattern" (reads_patternDeclaration.map id) <|
    reads_word? "rule" ((reads_rule start).map id) <|
    reads_word? "+" ((reads_addition start).map id) <|
    reads_word? "-" ((reads_deletion start).map id) <|
    reads_word? "~" ((reads_update start).map id) <|
    reads_word? "critical" hcritical <|
    reads_word? "check" (reads_pure fun _ _ => .check) <|
    reads_failAt _ _

/-! ## All items of a text -/

/-- Some items were read from one state to the other. -/
def Grown (p p' : Parser) : Prop :=
  ∃ new, p'.items = p.items ++ new ∧ p.declarations.Log new p'.declarations

theorem grown_of_record {p p' : Parser} (h : record p' = record p) : Grown p p' := by
  obtain ⟨hdeclarations, hitems⟩ := Prod.mk.inj h
  exact ⟨[], by rw [hitems, List.append_nil], hdeclarations.symm ▸ .nil _⟩

theorem Grown.trans {p p₁ p₂ : Parser} (h : Grown p p₁) (h' : Grown p₁ p₂) : Grown p p₂ := by
  obtain ⟨new, hitems, hlog⟩ := h
  obtain ⟨new', hitems', hlog'⟩ := h'
  exact ⟨new ++ new', by rw [hitems', hitems, List.append_assoc], hlog.trans hlog'⟩

/-- A computation reads items, also when it fails, and no failure is fatal. -/
structure Grows (x : Routine Parser α) : Prop where
  ok : ∀ {p a p'}, x p = .ok a p' → Grown p p'
  error : ∀ {p e p'}, x p = .error e p' → Grown p p' ∧ e.isFatal = false

theorem grows_of_keeps (hx : Keeps Failure.Mild record x) : Grows x where
  ok h := grown_of_record (hx.ok h)
  error h := ⟨grown_of_record (hx.error h).1, (hx.error h).2⟩

theorem Grows.bind {f : α → Routine Parser β} (hx : Grows x) (hf : ∀ a, Grows (f a)) :
    Grows (x >>= f) where
  ok h := by
    obtain ⟨a, p₁, h₁, h₂⟩ := bind_eq_ok.mp h
    exact (hx.ok h₁).trans ((hf a).ok h₂)
  error h := by
    rcases bind_eq_error.mp h with h | ⟨a, p₁, h₁, h₂⟩
    · exact hx.error h
    · exact ⟨(hx.ok h₁).trans ((hf a).error h₂).1, ((hf a).error h₂).2⟩

theorem Grows.ite {p : Prop} [Decidable p] {y : Routine Parser α} (hx : Grows x) (hy : Grows y) :
    Grows (if p then x else y) := by
  split_ifs
  · exact hx
  · exact hy

theorem Reads.push {x : Routine Parser (Option Item)} (hx : Reads (fun _ => True) id x)
    {y : Routine Parser α} (hy : Grows y) :
    Grows (x >>= fun
      | some found => (modify fun p => { p with items := p.items ++ [found] }) >>= fun _ => y
      | none => y) := by
  have hnone : ∀ {p p₁}, x p = .ok none p₁ → Grown p p₁ := fun h => by
    obtain ⟨hitems, hstep⟩ := hx.ok h trivial
    exact ⟨[], hitems.trans (List.append_nil _).symm, hstep.log⟩
  have hsome : ∀ {p found p₁}, x p = .ok (some found) p₁ →
      Grown p { p₁ with items := p₁.items ++ [found] } := fun h => by
    obtain ⟨hitems, hstep⟩ := hx.ok h trivial
    exact ⟨_, congrArg (· ++ [_]) hitems, hstep.log⟩
  constructor
  · intro p a p' h
    obtain ⟨found, p₁, h₁, h₂⟩ := bind_eq_ok.mp h
    cases found with
    | none => exact (hnone h₁).trans (hy.ok h₂)
    | some found => exact (hsome h₁).trans (hy.ok h₂)
  · intro p e p' h
    rcases bind_eq_error.mp h with h | ⟨found, p₁, h₁, h₂⟩
    · exact ⟨grown_of_record (hx.error h).1, (hx.error h).2⟩
    · cases found with
      | none => exact ⟨(hnone h₁).trans (hy.error h₂).1, (hy.error h₂).2⟩
      | some found => exact ⟨(hsome h₁).trans (hy.error h₂).1, (hy.error h₂).2⟩

theorem keeps_openItem : Keeps Failure.Mild record openItem := by
  refine (keeps_onPart ?_ (keeps_any _)).attempt.bind fun found => ?_
  · exact fun _ _ _ => rfl
  cases found with
  | ok u => exact keeps_pure _
  | error e => exact keeps_position.bind fun _ => keeps_failWithin _ _ _

theorem grows_itemsFrom (fuel : Nat) : Grows (itemsFrom fuel) := by
  induction fuel with
  | zero => exact grows_of_keeps (keeps_pure _)
  | succ fuel ih =>
    have hrest : Grows (do close; skip; itemsFrom fuel) :=
      (grows_of_keeps keeps_close).bind fun _ => (grows_of_keeps keeps_skip).bind fun _ => ih
    exact (grows_of_keeps keeps_get).bind fun _ => (grows_of_keeps (keeps_pure _)).ite <|
      (grows_of_keeps keeps_openItem).bind fun _ => (grows_of_keeps keeps_skip).bind fun _ =>
        reads_item.push hrest

theorem grows_allItems : Grows allItems :=
  (grows_of_keeps keeps_skip).bind fun _ => (grows_of_keeps keeps_fuel).bind fun fuel =>
    grows_itemsFrom fuel

end Parser

/-- **The items of a text**, whether it was read to its end or not, are a log of what is declared, and the
failure that ended the reading is not fatal. -/
theorem Declarations.parse_logs (d : Declarations) (text : List Char) (lineOffset : Nat) :
    d.Log (d.parse text lineOffset).items (d.parse text lineOffset).declarations ∧
      ∀ e ∈ (d.parse text lineOffset).failure, e.isFatal = false := by
  unfold parse
  cases h : Parser.allItems { declarations := d, cursor := .start text lineOffset } with
  | ok u p =>
    obtain ⟨new, hitems, hlog⟩ := Parser.grows_allItems.ok h
    obtain rfl : p.items = new := hitems
    exact ⟨hlog, nofun⟩
  | error e p =>
    obtain ⟨⟨new, hitems, hlog⟩, he⟩ := Parser.grows_allItems.error h
    obtain rfl : p.items = new := hitems
    exact ⟨hlog, fun e' he' => Option.some.inj he' ▸ he⟩

end RuleMonitor
