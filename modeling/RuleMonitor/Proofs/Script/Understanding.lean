import RuleMonitor.Proofs.Script.Drafting
import RuleMonitor.Proofs.Script.Logging

/-!
# Scripts that are understood

Statements that ask for something are read as that, however they are laid out. After texts that were read
before, to their ends or not, a rendering of statements is read to its end; the items are those that the
statements ask for, one after the other, and so are the patterns and the live contexts.

* `Statement.Asks.step`: what a statement asks for is a step of the log.
* `Parser.takes_item`, `Parser.takes_itemsFrom`: one statement, and all of them.
* **`Declarations.parse_rendering`**: texts that render statements.
-/

namespace RuleMonitor

open Std (ExtTreeMap)

open Script Routine

namespace Statement

variable {d d' : Declarations} {s : Statement} {found : Option Item}

theorem Given.name_eq_none {attributes : List (String × String)} (h : Given attributes) :
    (ExtTreeMap.ofList attributes : Attributes)["name"]? = none := by
  rw [ExtTreeMap.ofList_eq_insertMany_empty, Map.getElem?_insertMany_eq_none h.1]
  exact ⟨h.2, ExtTreeMap.getElem?_empty⟩

/-! ## What the roster does -/

section Roster

variable {r : Roster} {p name : String} {attributes : List (String × String)} {id : Nat} {c : Context}

theorem add_eq (hnew : r.byName? name = none) :
    Roster.add p ((ExtTreeMap.ofList attributes).insert "name" name) r =
      .ok ⟨.addition, p, ⟨r.next, (ExtTreeMap.ofList attributes).insert "name" name⟩⟩
        { next := r.next + 1
          live := r.live.insert r.next (p, ⟨r.next, (ExtTreeMap.ofList attributes).insert "name" name⟩)
          names := r.names.insert name r.next } :=
  Roster.add_ok ExtTreeMap.getElem?_insert_self hnew

theorem remove_eq (hn : r.Named) (hname : r.byName? name = some id) (hlive : r.live[id]? = some (p, c)) :
    Roster.remove id r = .ok ⟨.deletion, p, c⟩
      { r with live := r.live.erase id, names := r.names.erase name } := by
  obtain ⟨q, e, he, hattribute⟩ := hn name id hname
  obtain ⟨rfl, rfl⟩ := Prod.mk.inj (Option.some.inj (he.symm.trans hlive))
  exact Roster.remove_ok hlive hattribute

theorem update_eq (hgiven : Given attributes) (hlive : r.live[id]? = some (p, c)) :
    Roster.update id (ExtTreeMap.ofList attributes) r =
      .ok ⟨.update, p, { c with attributes := c.attributes.insertMany attributes }⟩
        { r with live := r.live.insert id (p, { c with attributes := c.attributes.insertMany attributes }) } := by
  rw [Roster.update_ok hlive hgiven.name_eq_none, Map.insertMany_toList_ofList _ hgiven.1]

end Roster

/-- **What a statement asks for** is a step of the log. -/
theorem Asks.step (h : Asks d s found d') (hn : d.roster.Named) : d.Step found d' := by
  cases h with
  | pattern => exact .pattern _ _
  | rule _ hbuild => exact .rule ((Expression.sentence_of_build _ hbuild) ▸ hbuild)
  | addition hp hnew _ hc =>
    subst hc
    exact .change hp ((Roster.operates_add _ _).ok (add_eq hnew)).1
  | deletion hp hname hlive =>
    exact .change hp ((Roster.operates_remove _).ok (remove_eq hn hname hlive)).1
  | update hp _ hlive hgiven _ hc =>
    subst hc
    exact .change hp ((Roster.operates_update _ _).ok (update_eq hgiven hlive)).1
  | @critical names ids hlive =>
    refine .critical fun id hid => ?_
    have hmem : some id ∈ names.map d.roster.byName? := hlive ▸ List.mem_map.mpr ⟨id, hid, rfl⟩
    obtain ⟨name, -, hname⟩ := List.mem_map.mp hmem
    exact ⟨name, hname⟩
  | check => exact .check

end Statement

namespace Parser

variable {b : Book} {ts : List Token} {R : List Char → Prop}

/-! ## Statements -/

theorem takes_changeRoster {x : Routine Roster Change} {c : Change} {r : Roster} (start : Nat)
    (hx : x b.declarations.roster = .ok c r) :
    Attains (Stands R b) (changeRoster start x) (· = c)
      (Stands R { b with declarations := { b.declarations with roster := r } }) := by
  have hon : Attains (Stands R b) (onRoster x) (· = c)
      (Stands R { b with declarations := { b.declarations with roster := r } }) := by
    rintro p ⟨hR, rfl⟩
    exact ⟨c, _, onPart_ok hx, rfl, hR, rfl⟩
  refine hon.attempt.bind fun o ho => ?_
  obtain ⟨c, rfl, rfl⟩ := ho
  exact attains_pure rfl

theorem takes_onLive {p name : String} {id : Nat} {c : Context} {f : Nat → Routine Parser Change}
    {A : Change → Prop} {post : Parser → Prop} (hp : b.declarations.patterns.contains p = true)
    (hname : b.declarations.roster.byName? name = some id)
    (hlive : b.declarations.roster.live[id]? = some (p, c))
    (hf : Attains (Stands (Rendering ts) b) (f id) A post) :
    Attains (Stands (Rendering (.name p :: .value name :: ts)) b) (do
      let pattern ← pattern
      skip
      let id ← live (some pattern)
      f id) A post := by
  refine (takes_pattern hp).next (takes_skip.bind fun _ _ => (takes_live hname fun q hq => ?_).next hf)
  obtain rfl := Option.some.inj hq
  rw [Roster.patternOf?, hlive]
  rfl

theorem takes_patternDeclaration {name : String} {attributes : List String}
    (hnew : b.declarations.patterns.contains name = false) :
    Attains (Stands (Rendering (.name name :: (attributes.map .name ++ .closing :: ts))) b) patternDeclaration
      (fun _ => True) (Stands (Laid (.closing :: ts)) { b with declarations := { b.declarations with
        patterns := b.declarations.patterns.insert name attributes } }) := by
  refine takes_nextName.nextSnd fun position => ?_
  refine Attains.get fun s hs => ?_
  have hdeclared : s.declarations = b.declarations := congrArg Book.declarations hs.2
  refine .check (by rw [hdeclared, hnew]; decide) (takes_skip.bind fun _ _ => ?_)
  refine (takes_fuel fun _ h => h.length_le).bind fun fuel hfuel => ?_
  have hle : attributes.length ≤ fuel := by
    rw [List.length_append, List.length_map] at hfuel
    omega
  refine (takes_namesFrom hle).next ?_
  rintro p ⟨hR, rfl⟩
  exact ⟨⟨⟩, _, rfl, trivial, hR, rfl⟩

/-- **A rule** is read as its formula in post-order. -/
theorem takes_rule {name : String} {e : Expression} {s : Sentence} (start : Nat)
    (hfits : e.Fits b.declarations.patterns) (hbuild : (e.draft name).build (e.size - 1) = .ok s) :
    Attains (Stands (Rendering (.name name :: (e.tokens ++ ts))) b) (rule start) (· = e.sentence name)
      (Stands (Rendering ts) { b with draft := e.draft name }) := by
  refine takes_nextName.nextSnd fun position => ?_
  have hstart : Attains (Stands (Laid (e.tokens ++ ts)) b)
      (modify fun p => { p with draft := { rule := name } } : Routine Parser PUnit) (fun _ => True)
      (Stands (Laid (e.tokens ++ ts)) { b with draft := { rule := name } }) := by
    rintro p ⟨hR, rfl⟩
    exact ⟨⟨⟩, _, rfl, trivial, hR, rfl⟩
  refine takes_skip.bind fun _ _ => hstart.bind fun _ _ => ?_
  refine (takes_fuel fun _ h => h.length_le).bind fun fuel hfuel => ?_
  have hle : e.size ≤ fuel := by
    have := e.size_le_tokens
    rw [List.length_append] at hfuel
    omega
  have hfresh : Fresh { rule := name } := fun _ _ => ExtTreeMap.getElem?_empty
  refine Attains.next (drafts_formula e (b := { b with draft := { rule := name } }) hle hfits hfresh) ?_
  have hroot : (e.extend { rule := name }).nodes.length - 1 = e.size - 1 := by
    rw [e.length_extend]
    exact congrArg (· - 1) (Nat.zero_add _)
  refine Attains.get fun p hp => ?_
  have hdraft : p.draft = e.draft name := congrArg Book.draft hp.2
  rw [hdraft]
  dsimp only
  rw [hroot, hbuild]
  exact attains_pure (e.sentence_of_build hbuild)

section Changes

variable {p name : String} {entries : List (String × String)} {id : Nat} {c : Context}

theorem takes_addition (start : Nat) (hp : b.declarations.patterns.contains p = true)
    (hnew : b.declarations.roster.byName? name = none) (hgiven : Statement.Given entries)
    {roster : Roster} {change : Change}
    (hx : Roster.add p ((ExtTreeMap.ofList entries).insert "name" name) b.declarations.roster = .ok change roster) :
    Attains (Stands (Rendering (.name p :: .value name ::
        (entries.flatMap Statement.attributeTokens ++ .closing :: ts))) b) (addition start) (· = change)
      (Stands (Laid (.closing :: ts)) { b with declarations := { b.declarations with roster } }) := by
  refine (takes_pattern hp).next (takes_nextValue.nextSnd fun position => ?_)
  refine Attains.get fun s hs => ?_
  have hdeclared : s.declarations = b.declarations := congrArg Book.declarations hs.2
  refine .check (by rw [hdeclared, hnew]; decide) ((takes_attributes hgiven).next ?_)
  exact takes_changeRoster start hx

theorem takes_deletion (start : Nat) (hp : b.declarations.patterns.contains p = true)
    (hname : b.declarations.roster.byName? name = some id)
    (hlive : b.declarations.roster.live[id]? = some (p, c))
    {roster : Roster} {change : Change}
    (hx : Roster.remove id b.declarations.roster = .ok change roster) :
    Attains (Stands (Rendering (.name p :: .value name :: ts)) b) (deletion start) (· = change)
      (Stands (Rendering ts) { b with declarations := { b.declarations with roster } }) :=
  takes_onLive hp hname hlive (takes_changeRoster start hx)

theorem takes_update (start : Nat) (hp : b.declarations.patterns.contains p = true)
    (hname : b.declarations.roster.byName? name = some id)
    (hlive : b.declarations.roster.live[id]? = some (p, c)) (hgiven : Statement.Given entries)
    (hne : entries ≠ []) {roster : Roster} {change : Change}
    (hx : Roster.update id (ExtTreeMap.ofList entries) b.declarations.roster = .ok change roster) :
    Attains (Stands (Rendering (.name p :: .value name ::
        (entries.flatMap Statement.attributeTokens ++ .closing :: ts))) b) (update start) (· = change)
      (Stands (Laid (.closing :: ts)) { b with declarations := { b.declarations with roster } }) := by
  have hsome : (ExtTreeMap.ofList entries : Attributes).isEmpty = false := by
    rw [ExtTreeMap.ofList_eq_insertMany_empty, ExtTreeMap.isEmpty_insertMany_list,
      List.isEmpty_eq_false_iff.mpr hne, Bool.and_false]
  refine takes_onLive hp hname hlive ((takes_attributes hgiven).next ?_)
  rw [hsome, if_neg Bool.false_ne_true]
  exact takes_changeRoster start hx

/-- Critical contexts are read up to the parenthesis that closes the item. -/
theorem takes_criticalFrom {names : List String} : ∀ {ids : List Nat} {fuel : Nat} {found : List Nat},
    names.map b.declarations.roster.byName? = ids.map some → names.length ≤ fuel →
    Attains (Stands (Laid (names.map .value ++ .closing :: ts)) b) (criticalFrom fuel found)
      (· = found ++ ids) (Stands (Laid (.closing :: ts)) b) := by
  induction names with
  | nil =>
    intro ids fuel found hids _
    obtain rfl : ids = [] := List.map_eq_nil_iff.mp hids.symm
    rw [List.append_nil]
    cases fuel with
    | zero => exact attains_pure rfl
    | succ fuel =>
      refine Attains.get fun s hs => ?_
      obtain ⟨c, hc, rfl⟩ := hs.1.exists_cons
      rw [Cursor.peek?, hc]
      exact attains_pure rfl
  | cons name names ih =>
    intro ids fuel found hids hfuel
    obtain ⟨fuel, rfl⟩ := Nat.exists_eq_succ_of_ne_zero (Nat.ne_zero_of_lt hfuel)
    cases ids with
    | nil => cases hids
    | cons id ids =>
      obtain ⟨hname, hids⟩ := List.cons.inj hids
      refine Attains.get fun s hs => ?_
      obtain ⟨c, hc, hstart⟩ := hs.1.exists_cons
      have hc' : c ≠ ')' := by
        rintro rfl
        rcases hstart with h | h <;> revert h <;> decide
      rw [Cursor.peek?, hc]
      dsimp only
      rw [if_neg hc']
      refine (takes_live (q := none) hname fun _ h => by cases h).next (takes_skip.bind fun _ _ => ?_)
      refine (ih hids (Nat.le_of_succ_le_succ hfuel)).imp (fun _ h => h) ?_ fun _ h => h
      rintro _ rfl
      rw [List.append_assoc, List.singleton_append]

end Changes

theorem takes_found {found : Option Item} (hR : ∀ cs, R cs → Rendering (.closing :: ts) cs) :
    Attains (Stands R b) (pure found : Routine Parser (Option Item)) (· = found)
      (fun p => ∃ draft, p.Stands (Rendering (.closing :: ts)) { b with draft }) :=
  fun p hp => ⟨found, p, rfl, rfl, b.draft, hR _ hp.1, hp.2⟩

/-- **An item** is read as what its statement asks for. -/
theorem takes_item {s : Statement} {found : Option Item} {d' : Declarations}
    (h : s.Asks b.declarations found d') (hn : b.declarations.roster.Named) :
    Attains (Stands (Laid (s.inner ++ .closing :: ts)) b) item (· = found)
      (fun p => ∃ draft, p.Stands (Rendering (.closing :: ts)) { b with declarations := d', draft }) := by
  refine takes_position.bind fun start _ => ?_
  cases h with
  | pattern hnew =>
    refine takes_word? ((takes_patternDeclaration hnew).bind fun _ _ => ?_)
    exact takes_found fun _ h => h.rendering
  | rule hfits hbuild =>
    refine misses_word? rfl <| takes_word? ?_
    exact (takes_rule start hfits hbuild).next (takes_found fun _ h => h)
  | addition hp hnew hgiven hc =>
    subst hc
    refine misses_word? rfl <| misses_word? rfl <| takes_word? ?_
    refine (takes_addition start hp hnew hgiven (Statement.add_eq hnew)).next ?_
    exact takes_found fun _ h => h.rendering
  | deletion hp hname hlive =>
    refine misses_word? rfl <| misses_word? rfl <| misses_word? rfl <| takes_word? ?_
    refine (takes_deletion start hp hname hlive (Statement.remove_eq hn hname hlive)).next ?_
    exact takes_found fun _ h => h
  | update hp hname hlive hgiven hne hc =>
    subst hc
    refine misses_word? rfl <| misses_word? rfl <| misses_word? rfl <| misses_word? rfl <|
      takes_word? ?_
    refine (takes_update start hp hname hlive hgiven hne (Statement.update_eq hgiven hlive)).next ?_
    exact takes_found fun _ h => h.rendering
  | @critical names ids hlive =>
    refine misses_word? rfl <| misses_word? rfl <| misses_word? rfl <| misses_word? rfl <|
      misses_word? rfl <| takes_word? ?_
    refine takes_skip.bind fun _ _ => (takes_fuel fun _ h => h.length_le).bind fun fuel hfuel => ?_
    have hle : names.length ≤ fuel := by
      refine (Nat.le_of_eq (List.length_map Token.value).symm).trans (le_of_lt (lt_of_le_of_lt ?_ hfuel))
      exact List.length_append ▸ Nat.le_add_right _ _
    exact (takes_criticalFrom hlive hle).next (takes_found fun _ h => h.rendering)
  | check =>
    refine misses_word? rfl <| misses_word? rfl <| misses_word? rfl <| misses_word? rfl <|
      misses_word? rfl <| misses_word? rfl <| takes_word? ?_
    exact takes_found fun _ h => h

theorem takes_openItem : Attains (Stands (Laid (.opening :: ts)) b) openItem (fun _ => True)
    (Stands (Rendering ts) b) := by
  refine takes_opening.attempt.bind fun o ho => ?_
  obtain ⟨_, rfl, -⟩ := ho
  exact attains_pure trivial

/-- **All items** are read, from what many texts declared on. -/
theorem takes_itemsFrom {sts : List Statement} {items : List Item} {d d' : Declarations}
    (h : Statement.Run d sts items d') : ∀ {log : List Item} {fuel : Nat} {b : Book}, b.declarations = d →
    ({} : Declarations).Log log d → sts.length ≤ fuel →
    Attains (Stands (Laid (sts.flatMap Statement.tokens)) b) (itemsFrom fuel) (fun _ => True)
      (fun p => ∃ draft, Stands (Laid []) ⟨d', draft, b.items ++ items⟩ p) := by
  induction h with
  | nil d =>
    rintro log fuel b rfl _ _
    have hend : ∀ p : Parser, p.Stands (Laid []) b →
        ∃ draft, Stands (Laid []) ⟨b.declarations, draft, b.items ++ []⟩ p :=
      fun p hp => ⟨b.draft, hp.1, by rw [List.append_nil]; exact hp.2⟩
    cases fuel with
    | zero => exact (attains_pure trivial).imp (fun _ h => h) (fun _ h => h) hend
    | succ fuel =>
      refine Attains.get fun p hp => ?_
      rw [Laid.eq_nil hp.1]
      exact (attains_pure trivial).imp (fun _ h => h) (fun _ h => h) hend
  | @cons d d₁ d₂ s rest found items hasks hrest ih =>
    rintro log fuel b rfl hlog hfuel
    obtain ⟨fuel, rfl⟩ := Nat.exists_eq_succ_of_ne_zero (Nat.ne_zero_of_lt hfuel)
    have hn := hlog.named Roster.holds_empty Roster.named_empty
    have hlog₁ := hlog.trans (hasks.step hn).log
    refine Attains.get fun p hp => ?_
    have hsome : p.cursor.rest.isEmpty = false := by
      obtain ⟨c, hc, -⟩ := hp.1.exists_cons
      rw [List.isEmpty_eq_false_iff]
      rintro he
      rw [he] at hc
      cases hc
    rw [hsome, if_neg Bool.false_ne_true]
    simp only [List.flatMap_cons, Statement.tokens, List.cons_append, List.append_assoc, List.nil_append]
    refine takes_openItem.bind fun _ _ => takes_skip.bind fun _ _ => (takes_item hasks hn).next ?_
    rintro q ⟨draft, hR, hq⟩
    have hnext : Attains (Stands (Rendering (.closing :: rest.flatMap Statement.tokens))
        ⟨d₁, draft, b.items ++ found.toList⟩) (do close; skip; itemsFrom fuel) (fun _ => True)
        (fun p => ∃ draft, Stands (Laid []) ⟨d₂, draft, b.items ++ (found.toList ++ items)⟩ p) := by
      rw [← List.append_assoc]
      exact takes_close.bind fun _ _ => takes_skip.bind fun _ _ =>
        ih rfl hlog₁ (Nat.le_of_succ_le_succ hfuel)
    cases found with
    | none => exact hnext q ⟨hR, by rw [hq, Option.toList_none, List.append_nil]⟩
    | some found =>
      refine hnext { q with items := q.items ++ [found] } ⟨hR, ?_⟩
      obtain ⟨rfl, rfl, hitems⟩ := Book.mk.inj hq
      rw [← hitems]
      rfl

end Parser

/-- **Texts that are understood.** After texts that were read before, to their ends or not, a rendering of
statements is read to its end. Its items are those that the statements ask for, in order, and what is
declared after it is what they declare. -/
theorem Declarations.parse_rendering (texts : List (List Char × Nat)) {sts : List Statement}
    {items : List Item} {d' : Declarations} {text : List Char} (lineOffset : Nat)
    (hrun : Statement.Run (({} : Declarations).parseAll texts).2 sts items d')
    (htext : Rendering (sts.flatMap Statement.tokens) text) :
    (({} : Declarations).parseAll texts).2.parse text lineOffset = ⟨items, d', none⟩ := by
  have hlog := parseAll_logs texts {}
  generalize (({} : Declarations).parseAll texts).2 = d at hrun hlog ⊢
  have hall : Attains (Parser.Stands (Rendering (sts.flatMap Statement.tokens)) ⟨d, { rule := "" }, []⟩)
      Parser.allItems (fun _ => True)
      (fun p => ∃ draft, Parser.Stands (Laid []) ⟨d', draft, [] ++ items⟩ p) := by
    refine Parser.takes_skip.bind fun _ _ => ?_
    refine (Parser.takes_fuel fun _ h => h.length_le).bind fun fuel hfuel => ?_
    refine Parser.takes_itemsFrom hrun rfl hlog (le_of_lt (lt_of_le_of_lt ?_ hfuel))
    rw [← List.append_nil (sts.flatMap _)]
    exact Parser.length_le_flatMap (f := Statement.tokens) fun _ => Nat.succ_pos _
  obtain ⟨_, p, hp, -, draft, -, hbook⟩ :=
    hall { declarations := d, cursor := .start text lineOffset } ⟨htext, rfl⟩
  obtain ⟨rfl, -, rfl⟩ := Parser.Book.mk.inj hbook
  rw [parse, hp]

theorem toList_ofList_append (cs cs' : List Char) :
    (String.ofList cs ++ String.ofList cs').toList = cs ++ cs' := by
  rw [String.toList_append, String.toList_ofList, String.toList_ofList]

namespace Sample

/-- The formula of a rule. -/
def formula : Expression :=
  .quantified .universal "v" "sensor" [.immutable] (.application "idle" [("1", "v")])

/-- What is asked for after the texts above. -/
def statements : List Statement :=
  [.rule "r" formula, .update "sensor" "b" [("state", "off; (for now)")], .critical ["b"]]

/-- A layout of the statements. -/
def layout : List Char :=
  ("(rule r ; of sensors\n (forall v sensor :immutable (bfunc idle(1 v))))\n" ++
    "(~ sensor b (state \"off; (for now)\"))(critical b)").toList

theorem rendering_layout : Rendering (statements.flatMap Statement.tokens) layout := by
  have spaced {t : Token} {ts : List Token} {written cs : List Char} (ht : t.Written written)
      (h : Laid ts cs) : Laid (t :: ts) (written ++ ([' '] ++ cs)) :=
    .cons ht (.blank rfl .nil) (.inl (List.cons_ne_nil _ _)) h
  have packed {t : Token} {ts : List Token} {written cs : List Char} (ht : t.Written written)
      (hapart : t.Apart [] ts) (h : Laid ts cs) : Laid (t :: ts) (written ++ ([] ++ cs)) :=
    .cons ht .nil hapart h
  have comment : Gap (" ; of sensors\n ".toList) :=
    .blank rfl (.comment (by decide : '\n' ∉ " of sensors".toList) (.blank rfl .nil))
  have hlaid : Laid (statements.flatMap Statement.tokens) _ :=
    packed .opening (by decide) <| spaced (.word (by decide)) <|
      Laid.cons (.name (by decide)) comment (by decide) <| packed .opening (by decide) <|
      spaced (.word (by decide)) <| spaced (.name (by decide)) <| spaced (.name (by decide)) <|
      spaced (.word (by decide)) <| packed .opening (by decide) <| spaced (.word (by decide)) <|
      packed (.name (by decide)) (by decide) <| packed .opening (by decide) <|
      spaced (.bare (by decide) (by decide)) <| packed (.name (by decide)) (by decide) <|
      packed .closing (by decide) <| packed .closing (by decide) <| packed .closing (by decide) <|
      Laid.cons .closing (.blank (by decide : Text.isBlank '\n' = true) .nil) (by decide) <|
      packed .opening (by decide) <| spaced (.word (by decide)) <| spaced (.name (by decide)) <|
      spaced (.bare (by decide) (by decide)) <| packed .opening (by decide) <|
      spaced (.name (by decide)) <| packed (.quoted (by decide)) (by decide) <|
      packed .closing (by decide) <| packed .closing (by decide) <| packed .opening (by decide) <|
      spaced (.word (by decide)) <| packed (.bare (by decide) (by decide)) (by decide) <|
      packed .closing (by decide) .nil
  exact ⟨[], _, .nil, hlaid, (toList_ofList_append _ _).trans (by decide +kernel)⟩

/-- The context that is live after the texts above. -/
def context : Context :=
  ⟨1, ExtTreeMap.ofList [("name", "b")]⟩

/-- The context after its update. -/
def updated : Context :=
  { context with attributes := context.attributes.insertMany [("state", "off; (for now)")] }

/-- What the statements ask for. -/
def understood : Parsed where
  items := [.rule (formula.sentence "r"), .change ⟨.update, "sensor", updated⟩, .critical [1]]
  declarations := { read.2 with roster :=
    { read.2.roster with live := read.2.roster.live.insert 1 ("sensor", updated) } }
  failure := none

theorem read_declares : read.2.patterns.contains "sensor" = true ∧ read.2.roster.byName? "b" = some 1 ∧
    read.2.roster.live[1]? = some ("sensor", context) := by
  rw [read, texts, String.toList_ofList, String.toList_ofList]
  decide +kernel

theorem run_of_declares {d : Declarations} (hpattern : d.patterns.contains "sensor" = true)
    (hname : d.roster.byName? "b" = some 1) (hlive : d.roster.live[1]? = some ("sensor", context)) :
    Statement.Run d statements understood.items { d with roster :=
      { d.roster with live := d.roster.live.insert 1 ("sensor", updated) } } := by
  have hbuild : (formula.draft "r").build 1 = .ok (formula.sentence "r") := by decide +kernel
  have hfits : formula.Fits d.patterns := ⟨hpattern, nofun, trivial⟩
  refine .cons (.rule hfits hbuild) ?_
  refine .cons (.update hpattern hname hlive ⟨by decide, by decide⟩ (List.cons_ne_nil _ _) rfl) ?_
  refine .cons (.critical (?_ : _ = [1].map some)) (.nil _)
  exact congrArg (fun id => [id]) hname

theorem run_statements : Statement.Run read.2 statements understood.items understood.declarations :=
  run_of_declares read_declares.1 read_declares.2.1 read_declares.2.2

end Sample

theorem Declarations.parse_rendering_sample :
    Statement.Run Sample.read.2 Sample.statements Sample.understood.items Sample.understood.declarations ∧
      Rendering (Sample.statements.flatMap Statement.tokens) Sample.layout ∧
      Sample.read.2.parse Sample.layout 0 = Sample.understood :=
  ⟨Sample.run_statements, Sample.rendering_layout,
    parse_rendering Sample.texts 0 Sample.run_statements Sample.rendering_layout⟩

end RuleMonitor
