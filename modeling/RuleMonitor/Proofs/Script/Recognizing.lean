import RuleMonitor.Proofs.Script.Understanding

/-!
# Formulas that were read

What a text makes of a formula is what a plain expression says. Its names are names, its positions are
those that predicates are given, and nothing but a known filter stands between the pattern of a quantifier
and its body. Repairs that are ruled out, filters that do not count, and positions in quotes leave no other
trace. So every rule among the items of a text, even of one that cannot be read to its end, was built from
a plain expression over declared patterns.

* `Expression.Plain`: expressions that say no more than a formula keeps.
* `Parser.Gives`: what a computation answers and leaves, if it succeeds.
* **`Parser.gives_formula`**: a formula; **`Parser.gives_rule`**: a rule.
* **`Declarations.spoken_of_mem`**: the rules among the items of a text.
-/

namespace RuleMonitor

open Std (ExtTreeMap)

open Script Routine

/-! ## Plain expressions -/

theorem Draft.position_position (text : String) : position (position text) = position text := by
  unfold position
  split_ifs with h h'
  · have hv : ("v" ++ text).toList = 'v' :: text.toList := String.toList_append
    rw [hv, List.all_cons, Bool.and_eq_true, Bool.and_eq_true] at h'
    exact absurd h'.2.1 (by decide)
  · rfl
  · rfl

namespace Expression

/-- A known filter, or nothing. -/
def PlainMarks (marks : List Mark) : Prop :=
  marks = [] ∨ ∃ dep, IsName dep ∧ marks = [.filter "greater" dep]

/-- The expression says no more than its formula keeps. -/
def Plain : Expression → Prop
  | quantified _ var pattern marks body =>
    IsName var ∧ IsName pattern ∧ PlainMarks marks ∧ body.Plain
  | binary _ left right => left.Plain ∧ right.Plain
  | negation body => body.Plain
  | application name params => IsName name ∧ ∀ p ∈ params, Draft.position p.1 = p.1 ∧ IsName p.2

theorem extend_redisabled (e : Expression) (d : Draft) (x y : ExtTreeMap Nat (List (Repair × String))) :
    { e.extend { d with disabled := x } with disabled := y } = { e.extend d with disabled := y } := by
  induction e generalizing d x y with
  | quantified kind var pattern marks body ih =>
    have hbody := ih d x y
    obtain ⟨hrule, hnodes, -⟩ := Draft.mk.inj hbody
    simp only [extend, hrule, hnodes]
  | binary op left right ihl ihr =>
    have hleft := Draft.mk.inj (ihl d x x)
    have hright := ihr (left.extend d) x y
    have hagain : { left.extend { d with disabled := x } with disabled := x } =
        { left.extend d with disabled := x } := ihl d x x
    have hwithin := ihr (left.extend { d with disabled := x }) x y
    rw [hagain, hright] at hwithin
    obtain ⟨hrule, hnodes, -⟩ := Draft.mk.inj hwithin
    simp only [extend, ← hrule, ← hnodes, hleft.2.1]
  | negation body ih =>
    obtain ⟨hrule, hnodes, -⟩ := Draft.mk.inj (ih d x y)
    simp only [extend, hrule, hnodes]
  | application name params => rfl

@[simp] theorem rule_extend (e : Expression) (d : Draft) : (e.extend d).rule = d.rule := by
  induction e generalizing d with
  | quantified _ _ _ _ _ ih | negation _ ih => exact ih d
  | binary _ left _ ihl ihr => exact (ihr (left.extend d)).trans (ihl d)
  | application => rfl

theorem Fits.mono {patterns patterns' : ExtTreeMap String (List String)}
    (hle : ∀ p, patterns.contains p = true → patterns'.contains p = true) {e : Expression}
    (h : e.Fits patterns) : e.Fits patterns' := by
  induction e with
  | quantified kind var pattern marks body ih => exact ⟨hle _ h.1, h.2.1, ih h.2.2⟩
  | binary op left right ihl ihr => exact ⟨ihl h.1, ihr h.2⟩
  | negation body ih => exact ih h
  | application name params => trivial

end Expression

/-! ## Names -/

theorem Cursor.isName_of_name {c c' : Cursor} {found : Nat × String} (h : name c = .ok found c') :
    IsName found.2 := by
  obtain ⟨o, c₁, h₁, h₂⟩ := bind_eq_ok.mp h
  cases o with
  | none => cases h₂
  | some found' =>
    cases h₂
    rw [name?, get_bind] at h₁
    split_ifs at h₁ with hstart
    · cases h₁
    obtain ⟨text, c₂, h₂, h₃⟩ := bind_eq_ok.mp h₁
    cases h₂
    split_ifs at h₃ with hkeyword
    · cases h₃
    cases h₃
    rw [Bool.not_eq_true, Bool.not_eq_false'] at hstart
    obtain ⟨x, hx, hs⟩ := (Option.any_eq_true _ _).mp hstart
    obtain ⟨xs, hrest⟩ := List.head?_eq_some_iff.mp hx
    refine ⟨?_, ?_, Bool.eq_false_of_not_eq_true hkeyword⟩
    · rw [String.toList_ofList, hrest, List.takeWhile_cons_of_pos (Cut.isNameChar_of_isNameStart hs)]
      exact hs
    · rw [String.toList_ofList]
      exact List.all_takeWhile

namespace Parser

variable {α β : Type} {b : Book} {A : α → Book → Prop} {B : β → Book → Prop}

/-! ## Computations that succeed -/

/-- What a computation answers, and what was read then, if it succeeds from a book on. -/
structure Gives (b : Book) (x : Routine Parser α) (A : α → Book → Prop) : Prop where
  ok : ∀ {p a p'}, p.book = b → x p = .ok a p' → A a p'.book

/-- The book stays, and the answer has a property. -/
abbrev Notes (b : Book) (x : Routine Parser α) (P : α → Prop) : Prop :=
  Gives b x fun a b' => P a ∧ b' = b

theorem Gives.bind {x : Routine Parser α} {f : α → Routine Parser β} (hx : Gives b x A)
    (hf : ∀ a b', A a b' → Gives b' (f a) B) : Gives b (x >>= f) B where
  ok hp h := by
    obtain ⟨a, p₁, h₁, h₂⟩ := bind_eq_ok.mp h
    exact (hf a p₁.book (hx.ok hp h₁)).ok rfl h₂

theorem Gives.next {P : α → Prop} {x : Routine Parser α} {f : α → Routine Parser β} (hx : Notes b x P)
    (hf : ∀ a, P a → Gives b (f a) B) : Gives b (x >>= f) B :=
  hx.bind fun a _ h => h.2 ▸ hf a h.1

theorem gives_pure {a : α} (h : A a b) : Gives b (pure a) A where
  ok hp h' := by
    cases h'
    exact hp ▸ h

theorem Gives.get {f : Parser → Routine Parser α} (hf : ∀ p, p.book = b → Gives b (f p) A) :
    Gives b (MonadState.get >>= f) A where
  ok hp h := (hf _ hp).ok hp h

theorem Gives.imp {x : Routine Parser α} {A' : α → Book → Prop} (hx : Gives b x A)
    (h : ∀ a b', A a b' → A' a b') : Gives b x A' where
  ok hp hx' := h _ _ (hx.ok hp hx')

theorem Gives.ite {p : Prop} [Decidable p] {x y : Routine Parser α} (hx : p → Gives b x A)
    (hy : ¬ p → Gives b y A) : Gives b (if p then x else y) A := by
  split_ifs with hp
  · exact hx hp
  · exact hy hp

theorem gives_any (x : Routine Parser α) : Gives b x fun _ _ => True where
  ok _ _ := trivial

theorem gives_failAt (position : Nat) (message : String) : Gives b (failAt position message) A where
  ok _ h := nomatch h

theorem gives_failWithin (position : Nat) (message : String) (e : Failure) :
    Gives b (failWithin position message e) A where
  ok _ h := absurd h failWithin_ne_ok

theorem Gives.check {p : Prop} [Decidable p] {y : Routine Parser PUnit} {f : PUnit → Routine Parser α}
    (hy : Gives b y fun _ _ => False) (hf : ¬ p → Gives b (f ⟨⟩) A) :
    Gives b (if p then y >>= f else f ⟨⟩) A :=
  .ite (fun _ => hy.bind fun _ _ h => h.elim) hf

theorem notes_read {P : α → Prop} {x : Routine Cursor α} (hx : ∀ {c a c'}, x c = .ok a c' → P a) :
    Notes b (read x) P where
  ok hp h := by
    obtain ⟨c, hc, rfl⟩ := exists_of_onPart h
    exact ⟨hx hc, hp⟩

theorem notes_reading (x : Routine Cursor α) : Notes b (read x) fun _ => True :=
  notes_read fun _ => trivial

theorem gives_onDraft (x : Routine Draft α) :
    Gives b (onDraft x) fun a b' => ∃ d, x b.draft = .ok a d ∧ b' = { b with draft := d } where
  ok hp h := by
    subst hp
    obtain ⟨d, hd, rfl⟩ := exists_of_onPart h
    exact ⟨d, hd, rfl⟩

theorem Gives.word? (text : String) {x y : Routine Parser α} (hx : Gives b x A) (hy : Gives b y A) :
    Gives b (do if ← read (Cursor.word? text) then x else y) A :=
  (notes_reading _).next fun _ _ => .ite (fun _ => hx) fun _ => hy

/-! ## Parts of formulas -/

theorem notes_skip : Notes b skip fun _ => True :=
  notes_reading _

theorem notes_close : Notes b close fun _ => True :=
  notes_skip.next fun _ _ => notes_reading _

theorem notes_nextName : Notes b nextName fun found => IsName found.2 :=
  notes_skip.next fun _ _ => notes_read Cursor.isName_of_name

theorem notes_nextValue : Notes b nextValue fun _ => True :=
  notes_skip.next fun _ _ => notes_reading _

theorem notes_position : Notes b position fun _ => True :=
  .get fun _ _ => gives_pure ⟨trivial, rfl⟩

theorem notes_fuel : Notes b fuel fun _ => True :=
  .get fun _ _ => gives_pure ⟨trivial, rfl⟩

theorem notes_pattern :
    Notes b pattern fun name => IsName name ∧ b.declarations.patterns.contains name = true :=
  notes_nextName.next fun found hfound => .get fun p hp => .check (gives_failAt _ _) fun hc => by
    have hdeclared : p.declarations = b.declarations := congrArg Book.declarations hp
    rw [Bool.not_eq_true, Bool.not_eq_false', hdeclared] at hc
    exact gives_pure ⟨⟨hfound, hc⟩, rfl⟩

theorem notes_paramsFrom (fuel : Nat) : ∀ {params : List (String × String)}, (∀ q ∈ params, IsName q.2) →
    Notes b (paramsFrom fuel params) fun found => ∀ q ∈ found, IsName q.2 := by
  induction fuel with
  | zero => exact fun h => gives_pure ⟨h, rfl⟩
  | succ fuel ih =>
    refine fun h => (notes_reading _).next fun _ _ => .ite (fun _ => gives_pure ⟨h, rfl⟩) fun _ => ?_
    refine notes_nextValue.next fun position _ => notes_nextName.next fun var hvar => ?_
    refine notes_close.next fun _ _ => notes_skip.next fun _ _ => ih ?_
    exact List.forall_mem_append.mpr ⟨h, List.forall_mem_singleton.mpr hvar⟩

theorem notes_repairMark (marks : List (String × List Repair)) :
    Notes b (repairMark marks) fun _ => True := by
  induction marks with
  | nil => exact gives_pure ⟨trivial, rfl⟩
  | cons mark marks ih => exact .word? _ (gives_pure ⟨trivial, rfl⟩) ih

/-- The filter depends on a name. -/
def Marks.Named (m : Marks) : Prop :=
  ∀ filter ∈ m.filter, IsName filter.2.2

theorem Marks.named_empty : Marks.Named {} :=
  fun _ h => nomatch h

theorem notes_marksFrom (fuel : Nat) : ∀ {m : Marks}, m.Named → Notes b (marksFrom fuel m) Marks.Named := by
  induction fuel with
  | zero => exact fun h => gives_pure ⟨h, rfl⟩
  | succ fuel ih =>
    refine fun h => notes_skip.next fun _ _ => notes_position.next fun position _ => .word? _ ?_ ?_
    · refine notes_nextName.next fun name _ => notes_nextName.next fun dep hdep => ih fun filter hf => ?_
      obtain rfl := Option.some.inj hf
      exact hdep
    · refine (notes_repairMark _).next fun found _ => ?_
      cases found with
      | some repairs => exact ih h
      | none => exact .get fun p _ => .check (gives_failAt _ _) fun _ => gives_pure ⟨h, rfl⟩

theorem gives_disable (node : Nat) (pattern : String) (repairs : List Repair) : ∀ {b : Book},
    Gives b (repairs.forM fun repair => onDraft (Draft.disable node repair pattern))
      fun _ b' => ∃ disabled, b' = { b with draft := { b.draft with disabled } } := by
  induction repairs with
  | nil => exact gives_pure ⟨_, rfl⟩
  | cons repair repairs ih =>
    refine (gives_onDraft _).bind fun _ b' h => ?_
    obtain ⟨d, hd, rfl⟩ := h
    cases hd
    exact ih

/-- **The marks of a quantifier** that was drafted last: a known filter, or nothing. -/
theorem gives_mark {nodes : List Shape} {kind : QuantifierKind} {var pattern : String} {sub : Nat}
    {m : Marks} (hm : m.Named) (hb : b.draft.nodes = nodes ++ [.quantified { kind, var, pattern } sub]) :
    Gives b (mark nodes.length pattern m) fun _ b' => ∃ marks disabled, Expression.PlainMarks marks ∧
      (∀ f ∈ Mark.filter? marks, Filter.ofName? f.1 f.2 ≠ none) ∧
      b' = { b with draft := { b.draft with
        nodes := nodes ++ [.quantified (Expression.quantifier kind var pattern marks) sub], disabled } } := by
  unfold mark
  cases hfilter : m.filter with
  | none =>
    refine (gives_disable _ _ _).imp fun _ b' h => ?_
    obtain ⟨disabled, rfl⟩ := h
    refine ⟨[], disabled, .inl rfl, fun f hf => absurd hf (Option.not_mem_none f), ?_⟩
    change _ = { b with draft := { b.draft with
      nodes := nodes ++ [Shape.quantified { kind, var, pattern } sub], disabled } }
    rw [← hb]
  | some found =>
    obtain ⟨position, name, dep⟩ := found
    have hdep : IsName dep := hm _ hfilter
    refine ⟨fun hp h => ?_⟩
    obtain ⟨o, p₁, h₁, h₂⟩ := bind_eq_ok.mp h
    rcases exists_of_attempt h₁ with ⟨u', rfl, hok⟩ | ⟨e, rfl, -⟩
    · obtain ⟨d, hd, hp₁⟩ := (gives_onDraft _).ok hp hok
      have hknown : name = "greater" ∧ d = { b.draft with nodes := nodes ++
          [.quantified { kind, var, pattern, filter := some (.greater dep) } sub] } := by
        rw [Draft.restrict, get_bind, hb, List.getElem?_concat_length] at hd
        unfold Filter.ofName? at hd
        split_ifs at hd with hname
        · cases hd
          refine ⟨hname, ?_⟩
          rw [List.set_append, if_neg (Nat.lt_irrefl _), Nat.sub_self]
          rfl
        · cases hd
      obtain ⟨rfl, rfl⟩ := hknown
      obtain ⟨disabled, hp'⟩ := (gives_disable _ _ _).ok hp₁ h₂
      refine ⟨[.filter "greater" dep], disabled, .inr ⟨dep, hdep, rfl⟩, fun f hf => ?_, hp'⟩
      obtain rfl := Option.some.inj hf
      exact Option.some_ne_none _
    · obtain ⟨_, p₂, h₂, -⟩ := bind_eq_ok.mp h₂
      exact absurd h₂ failWithin_ne_ok

/-! ## Formulas -/

/-- A plain expression was drafted, and its root comes last. -/
def Drafted (b : Book) (n : Nat) (b' : Book) : Prop :=
  ∃ (e : Expression) (disabled : ExtTreeMap Nat (List (Repair × String))), e.Plain ∧
    e.Fits b.declarations.patterns ∧ n = (e.extend b.draft).nodes.length - 1 ∧
    b' = { b with draft := { e.extend b.draft with disabled } }

theorem gives_push {shape : Shape} : Gives b (onDraft (Draft.push shape)) fun n b' =>
    n = (b.draft.nodes ++ [shape]).length - 1 ∧
      b' = { b with draft := { b.draft with nodes := b.draft.nodes ++ [shape] } } :=
  (gives_onDraft _).imp fun n b' h => by
    obtain ⟨d, hd, rfl⟩ := h
    cases hd
    exact ⟨by rw [List.length_append]; rfl, rfl⟩

theorem gives_application : Gives b application (Drafted b) := by
  refine notes_nextName.next fun name hname => notes_skip.next fun _ _ => notes_fuel.next fun fuel _ => ?_
  refine (notes_paramsFrom fuel fun _ h => nomatch List.not_mem_nil h).next fun params hparams => ?_
  refine gives_push.imp fun n b' h => ?_
  obtain ⟨rfl, rfl⟩ := h
  -- The positions are those that the predicate is given.
  have happly : Expression.apply name.2 (params.map fun p => (Draft.position p.1, p.2)) =
      ⟨name.2, params.map fun p => (Draft.position p.1, p.2)⟩ := by
    simp only [Expression.apply, List.map_map, Function.comp_def, Draft.position_position]
  refine ⟨.application name.2 (params.map fun p => (Draft.position p.1, p.2)), b.draft.disabled,
    ⟨hname, fun p hp => ?_⟩, trivial, ?_, ?_⟩
  · obtain ⟨q, hq, rfl⟩ := List.mem_map.mp hp
    exact ⟨Draft.position_position _, hparams q hq⟩
  · rw [Expression.extend, happly]
  · rw [Expression.extend, happly]

theorem gives_negation {operand : Routine Parser Nat} (h : Gives b operand (Drafted b)) :
    Gives b (negation operand) (Drafted b) := by
  refine notes_skip.next fun _ _ => h.bind fun body b₁ hbody => gives_push.imp fun n b' hn => ?_
  obtain ⟨e, disabled, hplain, hfits, rfl, rfl⟩ := hbody
  obtain ⟨rfl, rfl⟩ := hn
  exact ⟨.negation e, disabled, hplain, hfits, rfl, rfl⟩

theorem gives_binary (op : Connective) {operand : Routine Parser Nat}
    (h : ∀ {b}, Gives b operand (Drafted b)) : Gives b (binary op operand) (Drafted b) := by
  refine notes_skip.next fun _ _ => h.bind fun left b₁ hleft => ?_
  refine notes_skip.next fun _ _ => h.bind fun right b₂ hright => gives_push.imp fun n b' hn => ?_
  obtain ⟨l, disabled, hl, hlfits, rfl, rfl⟩ := hleft
  obtain ⟨r, disabled', hr, hrfits, rfl, rfl⟩ := hright
  obtain ⟨rfl, rfl⟩ := hn
  obtain ⟨hrule, hnodes, -⟩ :=
    Draft.mk.inj (r.extend_redisabled (l.extend b.draft) disabled disabled')
  refine ⟨.binary op l r, disabled', ⟨hl, hr⟩, ⟨hlfits, hrfits⟩, ?_, ?_⟩
  · simp only [Expression.extend, hnodes]
  · simp only [Expression.extend, hnodes, hrule]

theorem gives_quantifier (kind : QuantifierKind) {body : Routine Parser Nat}
    (h : Gives b body (Drafted b)) : Gives b (quantifier kind body) (Drafted b) := by
  refine notes_nextName.next fun var hvar => notes_pattern.next fun pattern hpattern => ?_
  refine notes_fuel.next fun fuel _ => (notes_marksFrom fuel Marks.named_empty).next fun m hm => ?_
  refine h.bind fun sub b₁ hsub => gives_push.bind fun node b₂ hnode => ?_
  obtain ⟨e, disabled, hplain, hfits, rfl, rfl⟩ := hsub
  obtain ⟨rfl, rfl⟩ := hnode
  rw [List.length_append]
  refine (gives_mark hm rfl).bind fun _ b' hb' => gives_pure ?_
  obtain ⟨marks, disabled', hmarks, hknown, rfl⟩ := hb'
  refine ⟨.quantified kind var.2 pattern marks e, disabled', ⟨hvar, hpattern.1, hmarks, hplain⟩,
    ⟨hpattern.2, hknown, hfits⟩, ?_, rfl⟩
  rw [Expression.extend, List.length_append]
  rfl

theorem gives_connective {formula : Routine Parser Nat} (h : ∀ {b}, Gives b formula (Drafted b)) :
    Gives b (connective formula) (Drafted b) :=
  notes_position.next fun _ _ =>
    .word? "forall" (gives_quantifier _ h) <|
    .word? "exists" (gives_quantifier _ h) <|
    .word? "not" (gives_negation h) <|
    .word? "bfunc" gives_application <|
    .word? "and" (gives_binary _ h) <|
    .word? "or" (gives_binary _ h) <|
    .word? "implies" (gives_binary _ h) <|
    gives_failAt _ _

/-- **A formula** that was read is drafted as a plain expression. -/
theorem gives_formula (fuel : Nat) : ∀ {b : Book}, Gives b (formula fuel) (Drafted b) := by
  induction fuel with
  | zero => exact ⟨fun _ h => nomatch h⟩
  | succ fuel ih =>
    refine (notes_reading _).next fun _ _ => notes_skip.next fun _ _ => ?_
    refine (gives_connective ih).bind fun n b' h => notes_close.next fun _ _ => gives_pure h

end Parser

/-! ## Rules -/

/-- A plain expression over declared patterns says what the rule says, apart from the repairs that it rules
out. -/
structure Sentence.Spoken (patterns : ExtTreeMap String (List String)) (s : Sentence) (e : Expression) :
    Prop where
  name : IsName s.rule
  plain : e.Plain
  fits : e.Fits patterns
  built : (e.draft s.rule).build (e.size - 1) = .ok (e.sentence s.rule)
  eq : s = { e.sentence s.rule with disabled := s.disabled }

theorem Sentence.Spoken.mono {patterns patterns' : ExtTreeMap String (List String)}
    (hle : ∀ p, patterns.contains p = true → patterns'.contains p = true) {s : Sentence} {e : Expression}
    (h : s.Spoken patterns e) : s.Spoken patterns' e :=
  { h with fits := h.fits.mono hle }

theorem Sentence.spoken_of_build {patterns : ExtTreeMap String (List String)} {e : Expression} {name : String}
    {s : Sentence} (hname : IsName name) (hplain : e.Plain) (hfits : e.Fits patterns)
    (h : (e.draft name).build (e.size - 1) = .ok s) (disabled : ExtTreeMap Nat (List (Repair × String))) :
    Sentence.Spoken patterns { s with disabled } e := by
  have hs := e.sentence_of_build h
  have hrule : s.rule = name := hs ▸ e.rule_extend _
  obtain rfl := hrule
  exact ⟨hname, hplain, hfits, hs ▸ h, by rw [← hs]⟩

theorem Draft.build_redisabled {d : Draft} {x : ExtTreeMap Nat (List (Repair × String))} {root : Nat}
    {s : Sentence} (h : ({ d with disabled := x } : Draft).build root = .ok s) :
    ∃ s', d.build root = .ok s' ∧ s = { s' with disabled := x } := by
  unfold build at h ⊢
  have hread : ({ d with disabled := x } : Draft).read root = d.read root := rfl
  rw [hread] at h
  cases hf : d.read root with
  | error e =>
    rw [hf] at h
    nomatch h
  | ok f =>
    rw [hf] at h
    cases h
    exact ⟨_, rfl, rfl⟩

namespace Parser

variable {α β : Type} {b : Book}

/-- **A rule** that was read is what a plain expression says. -/
theorem gives_rule (start : Nat) : Gives b (rule start) fun s b' =>
    b'.declarations = b.declarations ∧ ∃ e, s.Spoken b.declarations.patterns e := by
  refine notes_nextName.next fun name hname => notes_skip.next fun _ _ => ?_
  have hstart : Gives b (modify fun p => { p with draft := { rule := name.2 } } : Routine Parser PUnit)
      fun _ b' => b' = { b with draft := { rule := name.2 } } := ⟨fun hp h => by
    cases h
    subst hp
    rfl⟩
  refine hstart.bind fun _ b₁ hb₁ => ?_
  subst hb₁
  refine notes_fuel.next fun fuel _ => (gives_formula fuel).bind fun root b₂ hroot => .get fun p hp => ?_
  obtain ⟨e, disabled, hplain, hfits, rfl, rfl⟩ := hroot
  have hdraft : p.draft = { e.extend { rule := name.2 } with disabled } := congrArg Book.draft hp
  rw [hdraft]
  dsimp only
  cases hbuild : ({ e.extend { rule := name.2 } with disabled } : Draft).build
      ((e.extend { rule := name.2 }).nodes.length - 1) with
  | error err => exact gives_failWithin _ _ _
  | ok s =>
    obtain ⟨s', hs', rfl⟩ := Draft.build_redisabled hbuild
    have hlength : (e.extend { rule := name.2 }).nodes.length = e.size :=
      (e.length_extend _).trans (Nat.zero_add _)
    rw [hlength] at hs'
    exact gives_pure ⟨rfl, e, Sentence.spoken_of_build hname hplain hfits hs' disabled⟩

/-! ## Items -/

/-- **An item** that is a rule is what a plain expression says. -/
theorem gives_item : Gives b item fun found _ =>
    ∀ s, found = some (.rule s) → ∃ e, s.Spoken b.declarations.patterns e := by
  have hother {α : Type} (x : Routine Parser α) {f : α → Option Item} (hf : ∀ a s, f a ≠ some (.rule s)) :
      Gives b (do return f (← x)) fun found _ =>
        ∀ s, found = some (.rule s) → ∃ e, s.Spoken b.declarations.patterns e :=
    (gives_any x).bind fun a _ _ => gives_pure fun s hs => absurd hs (hf a s)
  refine notes_position.next fun start _ => .word? "pattern" (hother _ (f := fun _ => none) nofun) <|
    .word? "rule" ?_ <| .word? "+" (hother _ nofun) <| .word? "-" (hother _ nofun) <|
    .word? "~" (hother _ nofun) <| .word? "critical" ?_ <| .word? "check" (gives_pure nofun) <|
    gives_failAt _ _
  · refine (gives_rule start).bind fun s b' h => gives_pure fun s' hs' => ?_
    cases hs'
    exact h.2
  · exact notes_skip.next fun _ _ => notes_fuel.next fun fuel _ => hother _ nofun

end Parser

namespace Parser

variable {α β : Type}

/-- The rules among the items are what plain expressions say. -/
def Spoken (p : Parser) : Prop :=
  ∀ s, .rule s ∈ p.items → ∃ e, s.Spoken p.declarations.patterns e

/-- Rules that are read are what plain expressions say, also when a failure comes behind them. -/
structure Speaks (x : Routine Parser α) : Prop where
  ok : ∀ {p a p'}, x p = .ok a p' → p.Spoken → p'.Spoken
  error : ∀ {p e p'}, x p = .error e p' → p.Spoken → p'.Spoken

theorem Spoken.congr {p p' : Parser} (h : record p' = record p) (hp : p.Spoken) : p'.Spoken := by
  obtain ⟨hdeclarations, hitems⟩ := Prod.mk.inj h
  unfold Spoken
  rw [hdeclarations, hitems]
  exact hp

theorem speaks_of_keeps {x : Routine Parser α} (hx : Keeps Failure.Mild record x) : Speaks x where
  ok h := .congr (hx.ok h)
  error h := .congr (hx.error h).1

theorem Speaks.bind {x : Routine Parser α} {f : α → Routine Parser β} (hx : Speaks x)
    (hf : ∀ a, Speaks (f a)) : Speaks (x >>= f) where
  ok h hp := by
    obtain ⟨a, p₁, h₁, h₂⟩ := bind_eq_ok.mp h
    exact (hf a).ok h₂ (hx.ok h₁ hp)
  error h hp := by
    rcases bind_eq_error.mp h with h | ⟨a, p₁, h₁, h₂⟩
    · exact hx.error h hp
    · exact (hf a).error h₂ (hx.ok h₁ hp)

theorem speaks_item {f : PUnit → Routine Parser β} (hf : Speaks (f ⟨⟩)) :
    Speaks (item >>= fun
      | some found => (modify fun p => { p with items := p.items ++ [found] }) >>= f
      | none => f ⟨⟩) := by
  have hitem : ∀ {p found p₁}, item p = .ok found p₁ → p.Spoken →
      ∀ s, .rule s ∈ p₁.items ++ found.toList → ∃ e, s.Spoken p₁.declarations.patterns e := by
    intro p found p₁ h hp s hs
    obtain ⟨hitems, hstep⟩ := (reads_item (C := fun _ => True)).ok h trivial
    have hle : ∀ q, p.declarations.patterns.contains q = true →
        p₁.declarations.patterns.contains q = true := fun q hq => hstep.contains hq
    rw [show p₁.items = p.items from hitems, List.mem_append] at hs
    rcases hs with hs | hs
    · obtain ⟨e, he⟩ := hp s hs
      exact ⟨e, he.mono hle⟩
    · obtain ⟨e, he⟩ := gives_item.ok rfl h s (Option.mem_toList.mp hs)
      exact ⟨e, he.mono hle⟩
  constructor
  · intro p a p' h hp
    obtain ⟨found, p₁, h₁, h₂⟩ := bind_eq_ok.mp h
    have hp₁ := hitem h₁ hp
    cases found with
    | none => exact hf.ok h₂ (by rwa [Option.toList_none, List.append_nil] at hp₁)
    | some found => exact hf.ok h₂ hp₁
  · intro p e p' h hp
    rcases bind_eq_error.mp h with h | ⟨found, p₁, h₁, h₂⟩
    · exact hp.congr ((reads_item (C := fun _ => True)).error h).1
    have hp₁ := hitem h₁ hp
    cases found with
    | none => exact hf.error h₂ (by rwa [Option.toList_none, List.append_nil] at hp₁)
    | some found => exact hf.error h₂ hp₁

theorem speaks_itemsFrom (fuel : Nat) : Speaks (itemsFrom fuel) := by
  induction fuel with
  | zero => exact speaks_of_keeps (keeps_pure _)
  | succ fuel ih =>
    have hrest : Speaks (do close; skip; itemsFrom fuel) :=
      (speaks_of_keeps keeps_close).bind fun _ => (speaks_of_keeps keeps_skip).bind fun _ => ih
    refine (speaks_of_keeps keeps_get).bind fun p => ?_
    split_ifs
    · exact speaks_of_keeps (keeps_pure _)
    · exact (speaks_of_keeps keeps_openItem).bind fun _ => (speaks_of_keeps keeps_skip).bind fun _ =>
        speaks_item (f := fun _ => do close; skip; itemsFrom fuel) hrest

theorem speaks_allItems : Speaks allItems :=
  (speaks_of_keeps keeps_skip).bind fun _ => (speaks_of_keeps keeps_fuel).bind fun fuel =>
    speaks_itemsFrom fuel

end Parser

/-- **The rules among the items of a text**, whether it was read to its end or not, are what plain
expressions over declared patterns say. -/
theorem Declarations.spoken_of_mem {d : Declarations} {text : List Char} {lineOffset : Nat} {s : Sentence}
    (hs : .rule s ∈ (d.parse text lineOffset).items) :
    ∃ e, s.Spoken (d.parse text lineOffset).declarations.patterns e := by
  have hstart : Parser.Spoken { declarations := d, cursor := .start text lineOffset } :=
    fun _ h => nomatch List.not_mem_nil h
  unfold parse at hs ⊢
  cases h : Parser.allItems { declarations := d, cursor := .start text lineOffset } with
  | ok u p =>
    rw [h] at hs
    exact Parser.speaks_allItems.ok h hstart s hs
  | error e p =>
    rw [h] at hs
    exact Parser.speaks_allItems.error h hstart s hs

end RuleMonitor
