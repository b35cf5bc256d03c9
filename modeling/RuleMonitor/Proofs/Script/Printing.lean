import RuleMonitor.Proofs.Drafts
import RuleMonitor.Proofs.Script.Recognizing

/-!
# Formulas that are printed

The text of a formula is a layout of the tokens that it was read from, if the positions of its predicates
can be written without quotes. So a rule that was read can be written down from its formula, and is read
back as the same rule: the nodes, their indices, the root and all that is found in them agree. Only what
repairs it rules out is not written down.

* `Expression.Bare`, `Sentence.Bare`: positions that can be written without quotes.
* **`Expression.laid_render`**: the text of a formula as a layout of tokens.
* `Declarations.parse_rule`: a rule that is alone in a text.
* **`Declarations.parse_written`**: a rule that is written down is read back.
-/

namespace RuleMonitor

open Std (ExtTreeMap)

open Script Routine

/-! ## Layouts from behind -/

namespace Script

variable {t : Token} {ts : List Token} {written rest : List Char}

/-- A token comes before others that follow a gap, if one of the tokens next to the gap is a parenthesis. -/
theorem Rendering.laid (h : Rendering ts rest) (ht : t.Written written)
    (hapart : t.isParenthesis = true ∨ ts.head?.all Token.isParenthesis = true) :
    Laid (t :: ts) (written ++ rest) := by
  obtain ⟨gap, text, hgap, htext, rfl⟩ := h
  exact .cons ht hgap (.inr hapart) htext

theorem Laid.spaced (h : Laid ts rest) (ht : t.Written written) : Laid (t :: ts) (written ++ ' ' :: rest) :=
  have hgap : Gap [' '] := .blank rfl .nil
  .cons ht hgap (.inl (List.cons_ne_nil _ _)) h

theorem Laid.behind_space (h : Laid ts rest) : Rendering ts (' ' :: rest) :=
  ⟨[' '], rest, .blank rfl .nil, h, rfl⟩

end Script

/-! ## The text of a formula -/

/-- A text that can be written as a value without quotes. -/
def IsBare (text : String) : Prop :=
  text.toList ≠ [] ∧ text.toList.all isNameChar = true

instance (text : String) : Decidable (IsBare text) :=
  inferInstanceAs (Decidable (_ ∧ _))

/-- The positions and the variables of a node. -/
def Shape.params : Shape → List (String × String)
  | .application a => a.params
  | _ => []

namespace Expression

/-- All positions can be written without quotes. -/
def Bare : Expression → Prop
  | quantified _ _ _ _ body | negation body => body.Bare
  | binary _ left right => left.Bare ∧ right.Bare
  | application _ params => ∀ p ∈ params, IsBare p.1

theorem toString_text (text : String) : toString text = text := rfl

/-- The text of a parameter. -/
def paramText (param : String × String) : List Char :=
  ' ' :: '(' :: (param.1.toList ++ ' ' :: (param.2.toList ++ [')']))

/-- The text of what stands between the pattern of a quantifier and its body. -/
def filterText : Option Filter → List Char
  | some filter => filter.render.toList ++ [' ']
  | none => []

theorem toList_renderApplication (a : Application) : (Formula.renderApplication a).toList =
    '(' :: ("bfunc".toList ++ ' ' :: (a.name.toList ++ (a.params.flatMap paramText ++ [')']))) := by
  simp [Formula.renderApplication, toString_text, String.toList_join, List.flatMap_map]
  rfl

theorem toList_renderQuantifier (q : Quantifier) : (Formula.renderQuantifier q).toList =
    q.kind.word.toList ++ ' ' :: (q.var.toList ++ ' ' :: (q.pattern.toList ++ ' ' :: filterText q.filter)) := by
  cases hf : q.filter <;> simp [Formula.renderQuantifier, toString_text, hf, filterText]

theorem toList_renderGreater (dep : String) : (Filter.render (.greater dep)).toList =
    ":filter".toList ++ ' ' :: ("greater".toList ++ ' ' :: dep.toList) :=
  String.toList_append

variable {ts : List Token} {rest : List Char}

theorem rendering_params {params : List (String × String)}
    (h : ∀ p ∈ params, IsBare p.1 ∧ IsName p.2) (hrest : Rendering ts rest) :
    Rendering (params.flatMap paramTokens ++ .closing :: ts)
      (params.flatMap paramText ++ ')' :: rest) := by
  induction params with
  | nil => exact (hrest.laid .closing (.inl rfl)).rendering
  | cons param params ih =>
    rw [List.forall_mem_cons] at h
    obtain ⟨⟨⟨hne, hall⟩, hname⟩, hparams⟩ := h
    have hvar := ((ih hparams).laid .closing (.inl rfl)).rendering.laid (.name hname) (.inr rfl)
    have hparam := ((hvar.spaced (.bare hne hall)).rendering.laid .opening (.inl rfl)).behind_space
    simpa only [List.flatMap_cons, paramTokens, paramText, List.cons_append, List.append_assoc,
      List.nil_append] using hparam

theorem isParenthesis_head?_params (params : List (String × String)) :
    (params.flatMap paramTokens ++ .closing :: ts).head?.all Token.isParenthesis = true := by
  cases params <;> rfl

theorem laid_marks (kind : QuantifierKind) (var pattern : String) {marks : List Mark}
    (h : PlainMarks marks) (hrest : Laid ts rest) : Laid (marks.flatMap Mark.tokens ++ ts)
      (filterText (quantifier kind var pattern marks).filter ++ rest) := by
  rcases h with rfl | ⟨dep, hdep, rfl⟩
  · exact hrest
  · have hfilter : (quantifier kind var pattern [.filter "greater" dep]).filter = some (.greater dep) := rfl
    have hlaid : Laid ([.filter "greater" dep].flatMap Mark.tokens ++ ts) _ :=
      ((hrest.spaced (.name hdep)).spaced (.name (by decide))).spaced (.word (by decide))
    simpa only [hfilter, filterText, toList_renderGreater, List.append_assoc, List.cons_append,
      List.nil_append] using hlaid

theorem mem_words_quantifier (kind : QuantifierKind) : kind.word ∈ words := by
  cases kind <;> decide

theorem mem_words_connective (op : Connective) : op.word ∈ words := by
  cases op <;> decide

/-- The positions of a plain expression are those that its predicates are given. -/
theorem apply_eq {name : String} {params : List (String × String)} (h : (application name params).Plain) :
    apply name params = ⟨name, params⟩ := by
  have hparam : ∀ p ∈ params, (Draft.position p.1, p.2) = p := fun p hp => by rw [(h.2 p hp).1]
  rw [apply, List.map_congr_left hparam, List.map_id']

/-- **The text of a formula** is a layout of the tokens of its expression. -/
theorem laid_render {e : Expression} (hp : e.Plain) (hb : e.Bare) : ∀ {start : Nat} {ts : List Token}
    {rest : List Char}, Rendering ts rest →
    Laid (e.tokens ++ ts) ((e.numbered start).render.toList ++ rest) := by
  induction e with
  | quantified kind var pattern marks body ih =>
    intro start ts rest hrest
    obtain ⟨hvar, hpattern, hmarks, hbody⟩ := hp
    have hsub := @ih hbody hb start _ _ (hrest.laid .closing (.inl rfl)).rendering
    have hlaid := (((laid_marks kind var pattern hmarks hsub).spaced
      (.name hpattern)).spaced (.name hvar)).spaced (.word (mem_words_quantifier kind))
    have hall := hlaid.rendering.laid .opening (.inl rfl)
    simpa [numbered, Formula.render, tokens, toList_renderQuantifier, quantifier] using hall
  | binary op left right ihl ihr =>
    intro start ts rest hrest
    have hright := @ihr hp.2 hb.2 (start + left.size) _ _ (hrest.laid .closing (.inl rfl)).rendering
    have hleft := @ihl hp.1 hb.1 start _ _ hright.behind_space
    have hall := (hleft.spaced (.word (mem_words_connective op))).rendering.laid .opening (.inl rfl)
    simpa [numbered, Formula.render, tokens, toString_text] using hall
  | negation body ih =>
    intro start ts rest hrest
    have hsub := @ih hp hb start _ _ (hrest.laid .closing (.inl rfl)).rendering
    have hall := (hsub.spaced (.word (by decide : "not" ∈ words))).rendering.laid .opening (.inl rfl)
    simpa [numbered, Formula.render, tokens] using hall
  | application name params =>
    intro start ts rest hrest
    have hparams := rendering_params (fun p h => ⟨hb p h, (hp.2 p h).2⟩) hrest
    have hname := hparams.laid (.name hp.1) (.inr (isParenthesis_head?_params params))
    have hall := (hname.spaced (.word (by decide : "bfunc" ∈ words))).rendering.laid .opening (.inl rfl)
    simpa [numbered, Formula.render, tokens, toList_renderApplication, apply_eq hp] using hall

/-! ## Drafts of plain expressions -/

theorem extend_rename (e : Expression) (d : Draft) (rule : String) :
    e.extend { d with rule } = { e.extend d with rule } := by
  induction e generalizing d with
  | quantified _ _ _ _ _ ih | negation _ ih => simp only [extend, ih]
  | binary _ left _ ihl ihr => simp only [extend, ihl, ihr (left.extend d)]
  | application => rfl

theorem disabled_extend {e : Expression} (hp : e.Plain) (d : Draft) :
    (e.extend d).disabled = d.disabled := by
  induction e generalizing d with
  | quantified kind var pattern marks body ih =>
    obtain ⟨-, -, hmarks, hbody⟩ := hp
    rcases hmarks with rfl | ⟨dep, -, rfl⟩ <;> exact ih hbody d
  | binary op left right ihl ihr => exact (ihr hp.2 (left.extend d)).trans (ihl hp.1 d)
  | negation body ih => exact ih hp d
  | application name params => rfl

theorem bare_of_nodes {e : Expression} (hp : e.Plain) {d : Draft}
    (h : ∀ shape ∈ (e.extend d).nodes, ∀ p ∈ shape.params, IsBare p.1) : e.Bare := by
  induction e generalizing d with
  | quantified _ _ _ _ body ih =>
    exact ih hp.2.2.2 fun shape hs => h shape (List.mem_append_left _ hs)
  | binary op left right ihl ihr =>
    obtain ⟨more, hmore⟩ := right.exists_nodes_extend (left.extend d)
    refine ⟨ihl (d := d) hp.1 fun shape hs => h shape (List.mem_append_left _ ?_),
      ihr hp.2 fun shape hs => h shape (List.mem_append_left _ hs)⟩
    rw [hmore]
    exact List.mem_append_left _ hs
  | negation body ih => exact ih hp fun shape hs => h shape (List.mem_append_left _ hs)
  | application name params =>
    refine h (.application ⟨name, params⟩) ?_
    rw [extend, apply_eq hp]
    exact List.mem_concat_self

variable {patterns patterns' : ExtTreeMap String (List String)}

theorem contains_of_fits {e : Expression} (h : e.Fits patterns) {start : Nat} :
    ∀ p ∈ (e.numbered start).patterns, patterns.contains p = true := by
  induction e generalizing start with
  | quantified kind var pattern marks body ih =>
    rw [numbered, Formula.patterns_quantified, List.forall_mem_cons]
    exact ⟨h.1, ih h.2.2⟩
  | binary op left right ihl ihr =>
    rw [numbered, Formula.patterns_binary, List.forall_mem_append]
    exact ⟨ihl h.1, ihr h.2⟩
  | negation body ih => exact ih h
  | application name params => exact fun _ hp => absurd hp List.not_mem_nil

theorem Fits.of_patterns {e : Expression} (h : e.Fits patterns) {start : Nat}
    (hp : ∀ p ∈ (e.numbered start).patterns, patterns'.contains p = true) : e.Fits patterns' := by
  induction e generalizing start with
  | quantified kind var pattern marks body ih =>
    rw [numbered, Formula.patterns_quantified, List.forall_mem_cons] at hp
    exact ⟨hp.1, h.2.1, ih h.2.2 hp.2⟩
  | binary op left right ihl ihr =>
    rw [numbered, Formula.patterns_binary, List.forall_mem_append] at hp
    exact ⟨ihl h.1 hp.1, ihr h.2 hp.2⟩
  | negation body ih => exact ih h hp
  | application name params => trivial

theorem height_numbered_le (e : Expression) (start : Nat) : (e.numbered start).height ≤ e.size := by
  induction e generalizing start with
  | quantified _ _ _ _ _ ih | negation _ ih => exact Nat.succ_le_succ (ih start)
  | binary op left right ihl ihr =>
    have hl := ihl start
    have hr := ihr (start + left.size)
    simp only [numbered, Formula.height, size]
    omega
  | application => exact Nat.le_refl _

theorem build_renamed {e : Expression} {name : String} {s : Sentence}
    (h : (e.draft name).build (e.size - 1) = .ok s) (other : String) :
    (e.draft other).build (e.size - 1) = .ok (e.sentence other) := by
  have hw := Sentence.wellFormed_of_build h
  obtain rfl := e.sentence_of_build h
  have hindex : (e.numbered 0).index = e.size - 1 := by
    have := e.index_numbered 0
    omega
  have hlength : (e.draft other).nodes.length = e.size := (e.length_extend _).trans (Nat.zero_add _)
  have hfuel : (e.numbered 0).height ≤ Draft.fuel (e.draft other).nodes := by
    have := e.height_numbered_le 0
    unfold Draft.fuel
    omega
  have hread : Draft.readNode other (e.draft other).nodes (Draft.fuel (e.draft other).nodes)
      (e.numbered 0).index [] {} = .ok (e.numbered 0) _ :=
    Draft.readNode_of_covered (e.readFrom_extend { rule := other }) hfuel hw.inScope.covered
      (by rw [List.append_nil]; exact List.nodup_reverse.mpr hw.vars)
      (by rw [List.append_nil]; exact List.nodup_reverse.mpr hw.patterns)
  have hinside : e.size - 1 < (e.draft other).nodes.length := by
    have := e.index_numbered 0
    omega
  have hrule : (e.draft other).rule = other := e.rule_extend _
  rw [hindex] at hread
  rw [Draft.build, Draft.read, if_pos hinside, hrule, Routine.value_ok hread]
  rfl

end Expression

/-! ## Rules that are read back -/

namespace Parser

variable {b : Book} {name : String} {e : Expression}

theorem takes_end (fuel : Nat) :
    Attains (Stands (Laid []) b) (itemsFrom fuel) (fun _ => True) (Stands (Laid []) b) := by
  cases fuel with
  | zero => exact attains_pure trivial
  | succ fuel =>
    refine Attains.get fun p hp => ?_
    rw [hp.1.eq_nil]
    exact attains_pure trivial

theorem takes_onlyRule (hfits : e.Fits b.declarations.patterns) {s : Sentence}
    (hbuild : (e.draft name).build (e.size - 1) = .ok s) (fuel : Nat) :
    Attains (Stands (Laid (Statement.rule name e).tokens) b) (itemsFrom (fuel + 1)) (fun _ => True)
      (Stands (Laid [])
        { b with draft := e.draft name, items := b.items ++ [.rule (e.sentence name)] }) := by
  refine Attains.get fun p hp => ?_
  have hsome : p.cursor.rest.isEmpty = false := by
    obtain ⟨c, hc, -⟩ := hp.1.exists_cons
    rw [List.isEmpty_eq_false_iff]
    rintro he
    rw [he] at hc
    cases hc
  rw [hsome, if_neg Bool.false_ne_true]
  have hitem : Attains (Stands (Laid (.word "rule" :: .name name :: (e.tokens ++ [.closing]))) b) item
      (· = some (.rule (e.sentence name))) (Stands (Rendering [.closing]) { b with draft := e.draft name }) :=
    takes_position.bind fun start _ => misses_word? rfl <| takes_word? <|
      (takes_rule start hfits hbuild).next (attains_pure rfl)
  refine takes_openItem.bind fun _ _ => takes_skip.bind fun _ _ => hitem.next ?_
  rintro q ⟨hR, hq⟩
  have hrest : Attains (Stands (Rendering [.closing])
        { b with draft := e.draft name, items := b.items ++ [.rule (e.sentence name)] })
      (do close; skip; itemsFrom fuel) (fun _ => True) (Stands (Laid [])
        { b with draft := e.draft name, items := b.items ++ [.rule (e.sentence name)] }) :=
    takes_close.bind fun _ _ => takes_skip.bind fun _ _ => takes_end fuel
  refine hrest { q with items := q.items ++ [.rule (e.sentence name)] } ⟨hR, ?_⟩
  obtain ⟨hdeclarations, hdraft, hitems⟩ := Book.mk.inj hq
  rw [← hdeclarations, ← hdraft, ← hitems]
  rfl

end Parser

/-- **A rule that is alone in a text** is read wherever its patterns are declared. -/
theorem Declarations.parse_rule {d : Declarations} {name : String} {e : Expression} {s : Sentence}
    {text : List Char} (lineOffset : Nat) (hfits : e.Fits d.patterns)
    (hbuild : (e.draft name).build (e.size - 1) = .ok s)
    (htext : Rendering (Statement.rule name e).tokens text) :
    d.parse text lineOffset = ⟨[.rule (e.sentence name)], d, none⟩ := by
  have hall : Attains (Parser.Stands (Rendering (Statement.rule name e).tokens) ⟨d, { rule := "" }, []⟩)
      Parser.allItems (fun _ => True)
      (Parser.Stands (Laid []) ⟨d, e.draft name, [] ++ [.rule (e.sentence name)]⟩) := by
    refine Parser.takes_skip.bind fun _ _ => ?_
    refine (Parser.takes_fuel fun _ h => h.length_le).bind fun fuel hfuel => ?_
    obtain ⟨fuel, rfl⟩ := Nat.exists_eq_succ_of_ne_zero (Nat.ne_zero_of_lt hfuel)
    exact Parser.takes_onlyRule (b := ⟨d, { rule := "" }, []⟩) hfits hbuild fuel
  obtain ⟨_, p, hp, -, -, hbook⟩ :=
    hall { declarations := d, cursor := .start text lineOffset } ⟨htext, rfl⟩
  obtain ⟨rfl, -, hitems⟩ := Parser.Book.mk.inj hbook
  rw [parse, hp]
  change Parsed.mk p.items p.declarations none = _
  rw [hitems]
  rfl

namespace Sentence

/-- All positions of the rule can be written without quotes. -/
def Bare (s : Sentence) : Prop :=
  ∀ shape ∈ s.nodes, ∀ p ∈ shape.params, IsBare p.1

instance (s : Sentence) : Decidable s.Bare :=
  inferInstanceAs (Decidable (∀ shape ∈ s.nodes, ∀ p ∈ shape.params, IsBare p.1))

/-- The text of a rule of some name with the formula. -/
def written (s : Sentence) (name : String) : String :=
  "(rule " ++ name ++ " " ++ s.render ++ ")"

variable {s : Sentence} {e : Expression} {patterns : ExtTreeMap String (List String)} {name : String}

theorem Spoken.rendering (h : s.Spoken patterns e) (hb : s.Bare) (hname : IsName name) :
    Rendering (Statement.rule name e).tokens (s.written name).toList := by
  have hnodes : s.nodes = (e.draft s.rule).nodes := congrArg (fun s : Sentence => s.nodes) h.eq
  have hformula : s.formula = e.numbered 0 := congrArg (fun s : Sentence => s.formula) h.eq
  have hbare : e.Bare := Expression.bare_of_nodes h.plain fun shape hs => hb shape (hnodes ▸ hs)
  have hend : Rendering [] [] := Laid.nil.rendering
  have hsub := @Expression.laid_render e h.plain hbare 0 _ _ (hend.laid .closing (.inl rfl)).rendering
  have hrule := ((hsub.spaced (.name hname)).spaced (.word (by decide : "rule" ∈ words))).rendering
  simpa [Statement.tokens, Statement.inner, written, render, hformula] using
    (hrule.laid .opening (.inl rfl)).rendering

/-- Under another name, a rule that was read is what its expression says, apart from what it rules out. -/
theorem Spoken.renamed (h : s.Spoken patterns e) (name : String) :
    { s with rule := name, disabled := ∅ } = e.sentence name := by
  have hnodes : s.nodes = (e.extend { rule := s.rule }).nodes :=
    congrArg (fun s : Sentence => s.nodes) h.eq
  have hroot : s.root = e.size - 1 := congrArg Sentence.root h.eq
  have hformula : s.formula = e.numbered 0 := congrArg Sentence.formula h.eq
  have hdraft : e.draft name = { rule := name, nodes := s.nodes } := by
    have hrename := congrArg Draft.nodes (e.extend_rename { rule := s.rule } name)
    have hdisabled := Expression.disabled_extend h.plain { rule := name }
    rw [hnodes, Expression.draft]
    exact (Draft.mk.injEq ..).mpr ⟨e.rule_extend _, hrename, hdisabled⟩
  rw [Expression.sentence, hdraft, hroot, hformula]

end Sentence

/-- **A rule that is written down is read back.** Take any text, read to its end or not, and a rule among its
items whose positions can all be written without quotes. Its name is a name, and the patterns that it
quantifies over are declared. Wherever these are declared, the text of a rule with its formula, under any
name, is read to its end as that rule: the nodes at their indices, the root and the formula below it are the
same, and so is all that is found in them. It only rules out no repairs. Written down again, it has the same
text. -/
theorem Declarations.parse_written {d : Declarations} {text : List Char} {lineOffset : Nat} {s : Sentence}
    (hs : .rule s ∈ (d.parse text lineOffset).items) (hb : s.Bare) :
    IsName s.rule ∧
    (∀ p, s.mentions p = true → (d.parse text lineOffset).declarations.patterns.contains p = true) ∧
    ∀ name, IsName name → ∀ d' : Declarations,
      (∀ p, s.mentions p = true → d'.patterns.contains p = true) → ∀ lineOffset',
        d'.parse (s.written name).toList lineOffset' =
          ⟨[.rule { s with rule := name, disabled := ∅ }], d', none⟩ ∧
        ({ s with rule := name, disabled := ∅ } : Sentence).written name = s.written name := by
  obtain ⟨e, he⟩ := spoken_of_mem hs
  have hmentions : ∀ p, s.mentions p = true ↔ p ∈ (e.numbered 0).patterns := fun p => by
    rw [Sentence.mentions_iff, show s.formula = e.numbered 0 from congrArg Sentence.formula he.eq]
  refine ⟨he.name, fun p hp => Expression.contains_of_fits he.fits p ((hmentions p).mp hp), ?_⟩
  intro name hname d' hd' lineOffset'
  have hfits : e.Fits d'.patterns := he.fits.of_patterns fun p hp => hd' p ((hmentions p).mpr hp)
  rw [he.renamed name]
  refine ⟨parse_rule lineOffset' hfits (Expression.build_renamed he.built name) (he.rendering hb hname), ?_⟩
  rw [← he.renamed name]
  rfl

namespace Sample

/-- A rule with a filter, repairs that it rules out, and positions that are a number and in quotes. -/
def ordered : List Char :=
  ("(pattern p)(pattern q)(rule r (exists v p :immutable (not ; all later\n" ++
    "(forall w q :filter greater v (bfunc f (1 v)(\"x\" w))))))(").toList

/-- What the rule says. -/
def orderedRule : Sentence where
  rule := "r"
  nodes := [.application ⟨"f", [("v1", "v"), ("x", "w")]⟩,
    .quantified ⟨.universal, "w", "q", some (.greater "v")⟩ 0, .negation 1,
    .quantified ⟨.existential, "v", "p", none⟩ 2]
  disabled := ExtTreeMap.ofList [(3, [(Repair.addition, "p"), (Repair.removal, "p"), (Repair.update, "p")])]
  root := 3
  formula := .quantified 3 ⟨.existential, "v", "p", none⟩ (.negation 2
    (.quantified 1 ⟨.universal, "w", "q", some (.greater "v")⟩
      (.application 0 ⟨"f", [("v1", "v"), ("x", "w")]⟩)))

end Sample

theorem Declarations.parse_written_sample :
    .rule Sample.orderedRule ∈ (({} : Declarations).parse Sample.ordered 0).items ∧
    Sample.orderedRule.written "s" =
      "(rule s (exists v p (not (forall w q :filter greater v (bfunc f (v1 v) (x w))))))" ∧
    let d := (({} : Declarations).parse Sample.ordered 0).declarations
    d.parse (Sample.orderedRule.written "s").toList 3 =
      ⟨[.rule { Sample.orderedRule with rule := "s", disabled := ∅ }], d, none⟩ := by
  have hs : .rule Sample.orderedRule ∈ (({} : Declarations).parse Sample.ordered 0).items := by
    unfold Sample.ordered
    rw [toList_ofList_append]
    decide +kernel
  obtain ⟨-, hdeclared, hread⟩ := parse_written hs (by decide +kernel)
  exact ⟨hs, by decide +kernel, (hread "s" (by decide) _ hdeclared 3).1⟩

end RuleMonitor
