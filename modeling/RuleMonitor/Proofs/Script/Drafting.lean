import RuleMonitor.Proofs.Script.Statements

/-!
# Formulas that are drafted

Where the tokens of a formula come next, in any layout, the formula is drafted in post-order. Each step of
the parser moves past some tokens, and says what it leaves and what it makes of what was read so far.

* `Parser.Stands`: what comes next, and what was read so far.
* `Parser.takes_pattern`, `Parser.takes_attributes`, …: the parts of items.
* `Parser.takes_marksFrom`, `Parser.takes_mark`: the marks of a quantifier.
* **`Parser.drafts_formula`**: formulas.
-/

namespace RuleMonitor

open Std (ExtTreeMap)

open Script Routine

namespace Parser

/-! ## Where a parser stands -/

/-- What is declared, drafted and read so far. -/
structure Book where
  declarations : Declarations
  draft : Draft
  items : List Item

/-- What a parser has read so far. -/
def book (p : Parser) : Book :=
  ⟨p.declarations, p.draft, p.items⟩

/-- The text that comes next is of a kind, and this is what was read. -/
def Stands (R : List Char → Prop) (b : Book) (p : Parser) : Prop :=
  R p.cursor.rest ∧ p.book = b

section Steps

variable {α : Type} {R R' : List Char → Prop} {b : Book} {ts : List Token} {t : Token} {text : String}

theorem takes_read {x : Routine Cursor α} {A : α → Prop}
    (hx : Attains (Cursor.Sees R) x A (Cursor.Sees R')) : Attains (Stands R b) (read x) A (Stands R' b) :=
  hx.onPart (fun _ h => h.1) fun _ _ h ht => ⟨ht, h.2⟩

theorem Stands.rendering {p : Parser} (h : p.Stands (Laid ts) b) : p.Stands (Rendering ts) b :=
  ⟨h.1.rendering, h.2⟩

theorem takes_skip : Attains (Stands (Rendering ts) b) skip (fun _ => True) (Stands (Laid ts) b) :=
  takes_read Cursor.takes_skip

theorem takes_opening : Attains (Stands (Laid (.opening :: ts)) b) (read (Cursor.tag "("))
    (fun _ => True) (Stands (Rendering ts) b) :=
  takes_read (Cursor.takes_tag (fun _ h => by cases h; rfl))

theorem takes_close : Attains (Stands (Rendering (.closing :: ts)) b) close (fun _ => True)
    (Stands (Rendering ts) b) :=
  takes_skip.bind fun _ _ => takes_read (Cursor.takes_tag (fun _ h => by cases h; rfl))

theorem takes_nextName : Attains (Stands (Rendering (.name text :: ts)) b) nextName
    (fun found => found.2 = text) (Stands (Rendering ts) b) :=
  takes_skip.bind fun _ _ => takes_read Cursor.takes_name

theorem takes_nextValue : Attains (Stands (Rendering (.value text :: ts)) b) nextValue
    (fun found => found.2 = text) (Stands (Rendering ts) b) :=
  takes_skip.bind fun _ _ => takes_read Cursor.takes_value

theorem takes_position : Attains (Stands R b) position (fun _ => True) (Stands R b) :=
  Attains.get fun _ _ => attains_pure trivial

theorem takes_fuel {n : Nat} (hR : ∀ cs, R cs → n ≤ cs.length) :
    Attains (Stands R b) fuel (n < ·) (Stands R b) :=
  Attains.get fun _ hp => attains_pure (Nat.lt_succ_of_le (hR _ hp.1))

theorem takes_word? {x y : Routine Parser α} {A : α → Prop} {post : Parser → Prop}
    (hx : Attains (Stands (Rendering ts) b) x A post) :
    Attains (Stands (Laid (.word text :: ts)) b) (do if ← read (Cursor.word? text) then x else y) A post :=
  (takes_read Cursor.takes_word?).next hx

theorem misses_word? {x y : Routine Parser α} {A : α → Prop} {post : Parser → Prop}
    (ht : t.differs text = true) (hy : Attains (Stands (Laid (t :: ts)) b) y A post) :
    Attains (Stands (Laid (t :: ts)) b) (do if ← read (Cursor.word? text) then x else y) A post :=
  (takes_read (Cursor.misses_word? ht)).next hy

theorem takes_onDraft {x : Routine Draft α} {a : α} {d : Draft} (hx : x b.draft = .ok a d) :
    Attains (Stands R b) (onDraft x) (· = a) (Stands R { b with draft := d }) := by
  rintro p ⟨hR, rfl⟩
  exact ⟨a, _, onPart_ok hx, rfl, hR, rfl⟩

theorem takes_push {shape : Shape} : Attains (Stands R b) (onDraft (Draft.push shape))
    (· = b.draft.nodes.length)
    (Stands R { b with draft := { b.draft with nodes := b.draft.nodes ++ [shape] } }) :=
  takes_onDraft rfl

theorem takes_last {shape : Shape} : Attains (Stands R b) (onDraft (Draft.push shape))
    (· = (b.draft.nodes ++ [shape]).length - 1)
    (Stands R { b with draft := { b.draft with nodes := b.draft.nodes ++ [shape] } }) := by
  rw [List.length_append]
  exact takes_push

end Steps

/-! ## Parts of items -/

section Parts

variable {b : Book} {ts : List Token} {p name : String}

theorem takes_pattern (hp : b.declarations.patterns.contains p = true) :
    Attains (Stands (Rendering (.name p :: ts)) b) pattern (· = p) (Stands (Rendering ts) b) := by
  refine takes_nextName.nextSnd fun position => ?_
  refine Attains.get fun s hs => ?_
  have hdeclared : s.declarations = b.declarations := congrArg Book.declarations hs.2
  exact .check (by rw [hdeclared, hp]; decide) (attains_pure rfl)

theorem takes_live {q : Option String} {id : Nat} (hname : b.declarations.roster.byName? name = some id)
    (hq : ∀ p ∈ q, b.declarations.roster.patternOf? id = some p) :
    Attains (Stands (Laid (.value name :: ts)) b) (live q) (· = id) (Stands (Rendering ts) b) := by
  refine (takes_read Cursor.takes_value).nextSnd fun position => ?_
  refine Attains.get fun s hs => ?_
  have hdeclared : s.declarations = b.declarations := congrArg Book.declarations hs.2
  simp only [hdeclared, hname]
  cases q with
  | none => exact attains_pure rfl
  | some p => exact .check (not_not.mpr (hq p rfl)) (attains_pure rfl)

theorem length_le_flatMap {β : Type} {l : List β} {f : β → List Token} (hf : ∀ x, 0 < (f x).length)
    {rest : List Token} : l.length ≤ (l.flatMap f ++ rest).length := by
  rw [List.length_append]
  refine Nat.le_add_right_of_le ?_
  induction l with
  | nil => exact Nat.le_refl _
  | cons x l ih =>
    rw [List.flatMap_cons, List.length_cons, List.length_append]
    have := hf x
    omega

theorem takes_attributesFrom {entries : List (String × String)} : ∀ {fuel : Nat} {found : Attributes},
    entries.length ≤ fuel → (entries.map Prod.fst).Nodup → "name" ∉ entries.map Prod.fst →
    (∀ a ∈ entries.map Prod.fst, found.contains a = false) →
    Attains (Stands (Laid (entries.flatMap Statement.attributeTokens ++ .closing :: ts)) b)
      (attributesFrom fuel found) (· = found.insertMany entries) (Stands (Laid (.closing :: ts)) b) := by
  induction entries with
  | nil =>
    intro fuel found _ _ _ _
    rw [ExtTreeMap.insertMany_nil]
    cases fuel with
    | zero => exact attains_pure rfl
    | succ fuel =>
      exact (takes_read (Cursor.misses_tag? rfl)).next (attains_pure rfl)
  | cons entry entries ih =>
    intro fuel found hfuel hnodup hname hnew
    obtain ⟨a, v⟩ := entry
    obtain ⟨fuel, rfl⟩ := Nat.exists_eq_succ_of_ne_zero (Nat.ne_zero_of_lt hfuel)
    rw [List.map_cons, List.nodup_cons] at hnodup
    rw [List.map_cons, List.mem_cons, not_or] at hname
    rw [List.map_cons, List.forall_mem_cons] at hnew
    rw [ExtTreeMap.insertMany_cons]
    refine (takes_read (Cursor.takes_tag? fun _ h => by cases h; rfl)).next ?_
    refine takes_nextName.nextSnd fun position => ?_
    refine takes_nextValue.nextSnd fun position' => ?_
    refine takes_close.bind fun _ _ => takes_skip.bind fun _ _ => ?_
    refine .check (Ne.symm hname.1) (.check (by rw [hnew.1]; decide) ?_)
    refine ih (Nat.le_of_succ_le_succ hfuel) hnodup.2 hname.2 fun k hk => ?_
    rw [ExtTreeMap.contains_insert, hnew.2 k hk, Bool.or_false, beq_eq_false_iff_ne]
    intro he
    exact hnodup.1 (Std.LawfulEqCmp.compare_eq_iff_eq.mp he ▸ hk)

theorem takes_attributes {entries : List (String × String)} (h : Statement.Given entries) :
    Attains (Stands (Rendering (entries.flatMap Statement.attributeTokens ++ .closing :: ts)) b) attributes
      (· = ExtTreeMap.ofList entries) (Stands (Laid (.closing :: ts)) b) := by
  refine takes_skip.bind fun _ _ => (takes_fuel fun _ h => h.length_le).bind fun fuel hfuel => ?_
  rw [ExtTreeMap.ofList_eq_insertMany_empty]
  refine takes_attributesFrom (le_of_lt (lt_of_le_of_lt ?_ hfuel)) h.1 h.2 fun _ _ =>
    ExtTreeMap.contains_empty
  exact length_le_flatMap (f := Statement.attributeTokens) fun _ => Nat.succ_pos 3

theorem takes_namesFrom {names : List String} : ∀ {fuel : Nat} {found : List String},
    names.length ≤ fuel →
    Attains (Stands (Laid (names.map .name ++ .closing :: ts)) b) (namesFrom fuel found)
      (· = found ++ names) (Stands (Laid (.closing :: ts)) b) := by
  induction names with
  | nil =>
    intro fuel found _
    rw [List.append_nil]
    cases fuel with
    | zero => exact attains_pure rfl
    | succ fuel =>
      exact (takes_read (Cursor.misses_name? rfl)).next (attains_pure rfl)
  | cons name names ih =>
    intro fuel found hfuel
    obtain ⟨fuel, rfl⟩ := Nat.exists_eq_succ_of_ne_zero (Nat.ne_zero_of_lt hfuel)
    refine (takes_read Cursor.takes_name?).bind fun found' hfound => ?_
    obtain ⟨position, rfl⟩ := hfound
    refine takes_skip.bind fun _ _ => (ih (Nat.le_of_succ_le_succ hfuel)).imp (fun _ h => h) ?_ fun _ h => h
    rintro _ rfl
    rw [List.append_assoc, List.singleton_append]

end Parts

/-! ## Parameters -/

section Formulas

variable {b : Book} {ts : List Token} {name : String}

/-- Parameters are read up to the parenthesis that closes the formula. -/
theorem takes_paramsFrom {params : List (String × String)} : ∀ {fuel : Nat} {found : List (String × String)},
    params.length ≤ fuel →
    Attains (Stands (Laid (params.flatMap Expression.paramTokens ++ .closing :: ts)) b)
      (paramsFrom fuel found) (· = found ++ params) (Stands (Laid (.closing :: ts)) b) := by
  induction params with
  | nil =>
    intro fuel found _
    rw [List.append_nil]
    cases fuel with
    | zero => exact attains_pure rfl
    | succ fuel =>
      exact (takes_read (Cursor.misses_tag? rfl)).next (attains_pure rfl)
  | cons param params ih =>
    intro fuel found hfuel
    obtain ⟨position, var⟩ := param
    obtain ⟨fuel, rfl⟩ := Nat.exists_eq_succ_of_ne_zero (Nat.ne_zero_of_lt hfuel)
    refine (takes_read (Cursor.takes_tag? fun _ h => by cases h; rfl)).next ?_
    refine takes_nextValue.nextSnd fun place => ?_
    refine takes_nextName.nextSnd fun place' => ?_
    refine takes_close.bind fun _ _ => takes_skip.bind fun _ _ => ?_
    refine (ih (Nat.le_of_succ_le_succ hfuel)).imp (fun _ h => h) ?_ fun _ h => h
    rintro _ rfl
    rw [List.append_assoc, List.singleton_append]

/-! ## Marks -/

theorem takes_repairMark {mark : Mark} (h : Mark.filter? [mark] = none) :
    Attains (Stands (Laid (mark.tokens ++ ts)) b) (repairMark repairMarks) (· = some mark.repairs)
      (Stands (Rendering ts) b) := by
  have hword : ∀ {word : String} {repairs : List Repair} {rest : List (String × List Repair)},
      Attains (Stands (Laid (.word word :: ts)) b) (repairMark ((word, repairs) :: rest))
        (· = some repairs) (Stands (Rendering ts) b) := takes_word? (attains_pure rfl)
  cases mark with
  | filter name dep => cases h
  | nonAddable => exact hword
  | nonRemovable => exact misses_word? rfl hword
  | nonUpdatable => exact misses_word? rfl <| misses_word? rfl hword
  | immutable => exact misses_word? rfl <| misses_word? rfl <| misses_word? rfl hword

/-- **Marks** are read up to the formula behind them. -/
theorem takes_marksFrom {marks : List Mark} : ∀ {fuel : Nat} {found : Marks}, marks.length < fuel →
    Attains (Stands (Rendering (marks.flatMap Mark.tokens ++ .opening :: ts)) b) (marksFrom fuel found)
      (fun m => m.filter.map Prod.snd = (Mark.filter? marks).or (found.filter.map Prod.snd) ∧
        m.disabled = found.disabled ++ marks.flatMap Mark.repairs)
      (Stands (Laid (.opening :: ts)) b) := by
  induction marks with
  | nil =>
    intro fuel found hfuel
    obtain ⟨fuel, rfl⟩ := Nat.exists_eq_succ_of_ne_zero (Nat.ne_zero_of_lt hfuel)
    refine takes_skip.bind fun _ _ => takes_position.bind fun position _ => ?_
    have hnone : Attains (Stands (Laid (.opening :: ts)) b) (repairMark repairMarks) (· = none)
        (Stands (Laid (.opening :: ts)) b) :=
      misses_word? rfl <| misses_word? rfl <| misses_word? rfl <| misses_word? rfl (attains_pure rfl)
    refine misses_word? rfl (hnone.next (Attains.get fun p hp => .check ?_ (attains_pure ⟨rfl, ?_⟩)))
    · obtain ⟨c, hc, rfl⟩ := hp.1.exists_cons
      rw [Cursor.peek?, hc]
      decide
    · exact (List.append_nil _).symm
  | cons mark marks ih =>
    intro fuel found hfuel
    obtain ⟨fuel, rfl⟩ := Nat.exists_eq_succ_of_ne_zero (Nat.ne_zero_of_lt hfuel)
    refine takes_skip.bind fun _ _ => takes_position.bind fun position _ => ?_
    have hle := Nat.lt_of_succ_lt_succ hfuel
    have hrepair : Mark.filter? [mark] = none → Attains
        (Stands (Laid (mark.tokens ++ (marks.flatMap Mark.tokens ++ .opening :: ts))) b) (repairMark repairMarks)
        (· = some mark.repairs) (Stands (Rendering (marks.flatMap Mark.tokens ++ .opening :: ts)) b) :=
      takes_repairMark
    rw [List.flatMap_cons, List.flatMap_cons, List.append_assoc]
    cases mark with
    | filter name dep =>
      refine takes_word? (takes_nextName.nextSnd fun place => takes_nextName.nextSnd fun place' => ?_)
      refine (ih hle).imp (fun _ h => h) (fun m hm => ⟨?_, hm.2⟩) fun _ h => h
      rw [hm.1, Mark.filter?, Option.or_assoc]
      rfl
    | nonAddable | nonRemovable | nonUpdatable | immutable =>
      refine misses_word? rfl ((hrepair rfl).next ?_)
      refine (ih hle).imp (fun _ h => h) (fun m hm => ⟨hm.1, ?_⟩) fun _ h => h
      rw [hm.2, List.append_assoc]

/-- One more repair is ruled out at a node, which is not ruled out in the beginning. -/
theorem ruleOut_concat {disabled : ExtTreeMap Nat (List (Repair × String))} {node : Nat}
    (hnew : disabled[node]? = none) (pattern : String) (l : List Repair) (repair : Repair) :
    (Expression.ruleOut node pattern disabled l).insert node
        ((Expression.ruleOut node pattern disabled l).getD node [] ++ [(repair, pattern)]) =
      Expression.ruleOut node pattern disabled (l ++ [repair]) := by
  cases l with
  | nil =>
    change disabled.insert node (disabled.getD node [] ++ _) = _
    rw [ExtTreeMap.getD_eq_getD_getElem?, hnew]
    rfl
  | cons first l =>
    unfold Expression.ruleOut
    dsimp only [List.cons_append]
    refine ExtTreeMap.ext_getElem? fun k => ?_
    rw [ExtTreeMap.getD_insert_self, Map.getElem?_insert, Map.getElem?_insert, Map.getElem?_insert]
    split_ifs
    · rw [← List.cons_append, List.map_append]
      rfl
    · rfl

theorem takes_disable {R : List Char → Prop} {disabled : ExtTreeMap Nat (List (Repair × String))} {node : Nat}
    (hnew : disabled[node]? = none) (pattern : String) (repairs : List Repair) : ∀ {l : List Repair} {b : Book},
    b.draft.disabled = Expression.ruleOut node pattern disabled l →
    Attains (Stands R b) (repairs.forM fun repair => onDraft (Draft.disable node repair pattern))
      (fun _ => True) (Stands R { b with draft := { b.draft with
        disabled := Expression.ruleOut node pattern disabled (l ++ repairs) } }) := by
  induction repairs with
  | nil =>
    intro l b hb
    rw [List.append_nil, ← hb]
    exact attains_pure trivial
  | cons repair repairs ih =>
    intro l b hb
    have hone : Draft.disable node repair pattern b.draft = .ok ⟨⟩ { b.draft with
        disabled := Expression.ruleOut node pattern disabled (l ++ [repair]) } := by
      rw [← ruleOut_concat hnew, ← hb]
      rfl
    rw [← List.singleton_append, ← List.append_assoc]
    exact (takes_onDraft hone).next (ih rfl)

/-- Nothing is ruled out at nodes that are not there yet. -/
def Fresh (d : Draft) : Prop :=
  ∀ n, d.nodes.length ≤ n → d.disabled[n]? = none

theorem Fresh.extend (e : Expression) {d : Draft} (hd : Fresh d) : Fresh (e.extend d) := by
  induction e generalizing d with
  | quantified kind var pattern marks body ih =>
    intro n hn
    have hn : (body.extend d).nodes.length < n := by
      simp only [Expression.extend, List.length_append, List.length_singleton] at hn
      omega
    unfold Expression.extend
    cases marks.flatMap Mark.repairs with
    | nil => exact ih hd n (le_of_lt hn)
    | cons repair repairs =>
      change (ExtTreeMap.insert _ _ _)[n]? = none
      rw [Map.getElem?_insert, if_neg (ne_of_lt hn)]
      exact ih hd n (le_of_lt hn)
  | binary op left right ihl ihr =>
    intro n hn
    refine ihr (ihl hd) n (Nat.le_of_succ_le (Nat.le_trans (Nat.le_of_eq ?_) hn))
    simp only [Expression.extend, List.length_append, List.length_singleton]
  | negation body ih =>
    intro n hn
    refine ih hd n (Nat.le_of_succ_le (Nat.le_trans (Nat.le_of_eq ?_) hn))
    simp only [Expression.extend, List.length_append, List.length_singleton]
  | application name params =>
    intro n hn
    refine hd n (Nat.le_of_succ_le (Nat.le_trans (Nat.le_of_eq ?_) hn))
    simp only [Expression.extend, List.length_append, List.length_singleton]

/-- **The marks** of a quantifier that was drafted last. -/
theorem takes_mark {R : List Char → Prop} {d : Draft} {kind : QuantifierKind} {var pattern : String}
    {sub : Nat} {marks : List Mark} {m : Marks} (hd : Fresh d)
    (hfilter : m.filter.map Prod.snd = Mark.filter? marks) (hm : m.disabled = marks.flatMap Mark.repairs)
    (hknown : ∀ f ∈ Mark.filter? marks, Filter.ofName? f.1 f.2 ≠ none)
    (hb : b.draft = { d with nodes := d.nodes ++ [.quantified { kind, var, pattern } sub] }) :
    Attains (Stands R b) (mark d.nodes.length pattern m) (fun _ => True) (Stands R { b with draft :=
      { d with
        nodes := d.nodes ++ [.quantified (Expression.quantifier kind var pattern marks) sub]
        disabled := Expression.ruleOut d.nodes.length pattern d.disabled (marks.flatMap Mark.repairs) } }) := by
  have hdisable : ∀ {b' : Book}, b'.draft =
        { d with nodes := d.nodes ++ [.quantified (Expression.quantifier kind var pattern marks) sub] } →
      Attains (Stands R b') (m.disabled.forM fun repair => onDraft (Draft.disable d.nodes.length repair pattern))
        (fun _ => True) (Stands R { b' with draft := { d with
          nodes := d.nodes ++ [.quantified (Expression.quantifier kind var pattern marks) sub]
          disabled := Expression.ruleOut d.nodes.length pattern d.disabled
            (marks.flatMap Mark.repairs) } }) := by
    intro b' hb'
    have h := takes_disable (R := R) (b := b') (l := []) (hd _ (Nat.le_refl _)) pattern m.disabled
      (by rw [hb']; rfl)
    rw [hb', hm] at h
    rw [hm]
    exact h
  unfold mark
  cases hf : m.filter with
  | none =>
    rw [hf] at hfilter
    refine hdisable (hb.trans ?_)
    rw [Expression.quantifier, ← hfilter]
    rfl
  | some found =>
    obtain ⟨position, name, dep⟩ := found
    rw [hf] at hfilter
    have hname : Mark.filter? marks = some (name, dep) := hfilter.symm
    obtain ⟨filter, hofName⟩ := Option.ne_none_iff_exists'.mp (hknown _ hname)
    have hrun : Draft.restrict d.nodes.length name dep b.draft = .ok ⟨⟩ { d with
        nodes := d.nodes ++ [.quantified (Expression.quantifier kind var pattern marks) sub] } := by
      have hset (shape shape' : Shape) : (d.nodes ++ [shape]).set d.nodes.length shape' = d.nodes ++ [shape'] := by
        rw [List.set_append, if_neg (Nat.lt_irrefl _), Nat.sub_self]
        rfl
      rw [hb, Draft.restrict, get_bind]
      simp only [hofName, List.getElem?_concat_length, hset, Expression.quantifier, hname, Option.bind_some]
      rfl
    refine (takes_onDraft hrun).attempt.bind fun o ho => ?_
    obtain ⟨_, rfl, rfl⟩ := ho
    exact hdisable rfl

/-! ## Formulas -/

/-- From a text of a kind on, a formula is drafted behind the nodes that there are, up to some tokens. -/
def Drafts (R : List Char → Prop) (b : Book) (x : Routine Parser Nat) (e : Expression) (ts : List Token) : Prop :=
  Attains (Stands R b) x (· = (e.extend b.draft).nodes.length - 1)
    (Stands (Rendering ts) { b with draft := e.extend b.draft })

theorem exists_tokens (e : Expression) : ∃ rest, e.tokens = .opening :: rest := by
  cases e <;> exact ⟨_, rfl⟩

theorem drafts_application {params : List (String × String)} :
    Drafts (Rendering (.name name :: (params.flatMap Expression.paramTokens ++ .closing :: ts))) b application
      (.application name params) (.closing :: ts) := by
  refine takes_nextName.nextSnd fun position => takes_skip.bind fun _ _ => ?_
  refine (takes_fuel fun _ h => h.length_le).bind fun fuel hfuel => ?_
  refine (takes_paramsFrom (le_of_lt (lt_of_le_of_lt ?_ hfuel))).next ?_
  · exact length_le_flatMap (f := Expression.paramTokens) fun _ => Nat.succ_pos 3
  · exact takes_last.imp (fun _ h => h) (fun _ h => h) fun _ h => h.rendering

theorem drafts_negation {body : Expression} {operand : Routine Parser Nat}
    (h : Drafts (Laid (body.tokens ++ ts)) b operand body ts) :
    Drafts (Rendering (body.tokens ++ ts)) b (negation operand) (.negation body) ts :=
  takes_skip.bind fun _ _ => Attains.next h takes_last

theorem drafts_binary {op : Connective} {left right : Expression} {operand : Routine Parser Nat}
    (hl : Drafts (Laid (left.tokens ++ (right.tokens ++ ts))) b operand left (right.tokens ++ ts))
    (hr : Drafts (Laid (right.tokens ++ ts)) { b with draft := left.extend b.draft } operand right ts) :
    Drafts (Rendering (left.tokens ++ (right.tokens ++ ts))) b (binary op operand) (.binary op left right) ts :=
  takes_skip.bind fun _ _ => Attains.next hl <| takes_skip.bind fun _ _ => Attains.next hr takes_last

theorem drafts_quantifier {kind : QuantifierKind} {var p : String} {marks : List Mark} {e : Expression}
    {body : Routine Parser Nat} (hfits : (Expression.quantified kind var p marks e).Fits b.declarations.patterns)
    (hd : Fresh b.draft) (hbody : Drafts (Laid (e.tokens ++ ts)) b body e ts) :
    Drafts (Rendering (.name var :: .name p :: (marks.flatMap Mark.tokens ++ (e.tokens ++ ts)))) b
      (quantifier kind body) (.quantified kind var p marks e) ts := by
  refine takes_nextName.nextSnd fun position => (takes_pattern hfits.1).next ?_
  obtain ⟨rest, hrest⟩ := exists_tokens e
  rw [hrest] at hbody ⊢
  refine (takes_fuel fun _ h => h.length_le).bind fun fuel hfuel => ?_
  have hmarks : marks.length < fuel := by
    refine lt_of_le_of_lt (length_le_flatMap (f := Mark.tokens) fun mark => ?_) hfuel
    cases mark <;> exact Nat.succ_pos _
  refine (takes_marksFrom hmarks).bind fun m hm => Attains.next hbody (takes_push.next ?_)
  have hfilter : m.filter.map Prod.snd = Mark.filter? marks := hm.1.trans Option.or_none
  refine (takes_mark (hd.extend e) hfilter hm.2 hfits.2.1 rfl).bind fun _ _ => attains_pure ?_
  rw [Expression.extend, List.length_append]
  rfl

theorem drafts_parentheses {fuel : Nat} {us : List Token} {e : Expression}
    (h : Drafts (Laid us) b (connective (formula fuel)) e (.closing :: ts)) :
    Drafts (Laid (.opening :: us)) b (formula (fuel + 1)) e ts :=
  takes_opening.bind fun _ _ => takes_skip.bind fun _ _ => Attains.next h <| takes_close.bind fun _ _ =>
    attains_pure rfl

/-- **A formula** is drafted in post-order. -/
theorem drafts_formula (e : Expression) : ∀ {fuel : Nat} {b : Book} {ts : List Token}, e.size ≤ fuel →
    e.Fits b.declarations.patterns → Fresh b.draft →
    Drafts (Laid (e.tokens ++ ts)) b (formula fuel) e ts := by
  induction e with
  | quantified kind var p marks body ih =>
    intro fuel b ts hfuel hfits hd
    obtain ⟨fuel, rfl⟩ := Nat.exists_eq_succ_of_ne_zero (Nat.ne_zero_of_lt hfuel)
    have hbody {ts : List Token} : Drafts (Laid (body.tokens ++ ts)) b (formula fuel) body ts :=
      ih (Nat.le_of_succ_le_succ hfuel) hfits.2.2 hd
    simp only [Expression.tokens, List.cons_append, List.append_assoc, List.nil_append]
    refine drafts_parentheses (takes_position.bind fun _ _ => ?_)
    cases kind with
    | universal => exact takes_word? (drafts_quantifier hfits hd hbody)
    | existential => exact misses_word? rfl <| takes_word? (drafts_quantifier hfits hd hbody)
  | binary op left right ihl ihr =>
    intro fuel b ts hfuel hfits hd
    obtain ⟨fuel, rfl⟩ := Nat.exists_eq_succ_of_ne_zero (Nat.ne_zero_of_lt hfuel)
    have hle := Nat.le_of_succ_le_succ hfuel
    have hl {ts : List Token} : Drafts (Laid (left.tokens ++ ts)) b (formula fuel) left ts :=
      ihl (Nat.le_trans (Nat.le_add_right _ _) hle) hfits.1 hd
    have hr {ts : List Token} : Drafts (Laid (right.tokens ++ ts)) { b with draft := left.extend b.draft }
        (formula fuel) right ts :=
      ihr (Nat.le_trans (Nat.le_add_left _ _) hle) hfits.2 (hd.extend left)
    simp only [Expression.tokens, List.cons_append, List.append_assoc, List.nil_append]
    refine drafts_parentheses (takes_position.bind fun _ _ => ?_)
    have hdiffers : ∀ text ∈ ["forall", "exists", "not", "bfunc"], (Token.word op.word).differs text = true := by
      cases op <;> decide
    simp only [List.forall_mem_cons] at hdiffers
    refine misses_word? hdiffers.1 <| misses_word? hdiffers.2.1 <| misses_word? hdiffers.2.2.1 <|
      misses_word? hdiffers.2.2.2.1 ?_
    cases op with
    | and => exact takes_word? (drafts_binary hl hr)
    | or => exact misses_word? rfl <| takes_word? (drafts_binary hl hr)
    | implies => exact misses_word? rfl <| misses_word? rfl <| takes_word? (drafts_binary hl hr)
  | negation body ih =>
    intro fuel b ts hfuel hfits hd
    obtain ⟨fuel, rfl⟩ := Nat.exists_eq_succ_of_ne_zero (Nat.ne_zero_of_lt hfuel)
    simp only [Expression.tokens, List.cons_append, List.append_assoc, List.nil_append]
    refine drafts_parentheses (takes_position.bind fun _ _ => ?_)
    refine misses_word? rfl <| misses_word? rfl <| takes_word? (drafts_negation ?_)
    exact ih (Nat.le_of_succ_le_succ hfuel) hfits hd
  | application name params =>
    intro fuel b ts hfuel hfits hd
    obtain ⟨fuel, rfl⟩ := Nat.exists_eq_succ_of_ne_zero (Nat.ne_zero_of_lt hfuel)
    simp only [Expression.tokens, List.cons_append, List.append_assoc, List.nil_append]
    refine drafts_parentheses (takes_position.bind fun _ _ => ?_)
    exact misses_word? rfl <| misses_word? rfl <| misses_word? rfl <| takes_word? drafts_application

end Formulas

end Parser

end RuleMonitor
