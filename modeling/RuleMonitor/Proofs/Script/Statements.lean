import RuleMonitor.Proofs.Script.Layout
import RuleMonitor.Proofs.Sentences
import RuleMonitor.Script.Item

/-!
# Statements

What a script says, apart from how it is laid out: statements that declare patterns and rules, change
contexts, list critical ones, or ask for a check. A formula is drafted in post-order, so that the operands
of a node come before it, and its root comes last.

* `Expression`, `Statement`: formulas and statements, with their tokens.
* `Expression.extend`, `Expression.numbered`: the draft of a formula, and the formula with its indices.
* **`Expression.sentence_of_build`**: what is built from the draft is the formula in post-order.
* `Statement.Asks`, `Statement.Run`: what statements ask for where something is declared.
-/

namespace RuleMonitor

open Std (ExtTreeMap)

open Script

/-! ## Formulas -/

/-- What stands between the pattern of a quantifier and its body. -/
inductive Mark where
  | filter (name dep : String)
  | nonAddable
  | nonRemovable
  | nonUpdatable
  | immutable
deriving DecidableEq

namespace Mark

/-- The repairs that a mark rules out. -/
def repairs : Mark → List Repair
  | filter .. => []
  | nonAddable => [.addition]
  | nonRemovable => [.removal]
  | nonUpdatable => [.update]
  | immutable => [.addition, .removal, .update]

/-- The name of the filter that counts, which is the last one, with the variable that it depends on. -/
def filter? : List Mark → Option (String × String)
  | [] => none
  | filter name dep :: rest => (filter? rest).or (some (name, dep))
  | _ :: rest => filter? rest

def tokens : Mark → List Token
  | filter name dep => [.word ":filter", .name name, .name dep]
  | nonAddable => [.word ":non-addable"]
  | nonRemovable => [.word ":non-removable"]
  | nonUpdatable => [.word ":non-updatable"]
  | immutable => [.word ":immutable"]

end Mark

/-- A formula as it is written. -/
inductive Expression where
  | quantified (kind : QuantifierKind) (var pattern : String) (marks : List Mark) (body : Expression)
  | binary (op : Connective) (left right : Expression)
  | negation (body : Expression)
  /-- A predicate applied to variables in positions. -/
  | application (name : String) (params : List (String × String))
deriving DecidableEq

namespace Expression

/-- The tokens of a parameter. -/
def paramTokens (param : String × String) : List Token :=
  [.opening, .value param.1, .name param.2, .closing]

def tokens : Expression → List Token
  | quantified kind var pattern marks body =>
    .opening :: .word kind.word :: .name var :: .name pattern ::
      (marks.flatMap Mark.tokens ++ (body.tokens ++ [.closing]))
  | binary op left right => .opening :: .word op.word :: (left.tokens ++ (right.tokens ++ [.closing]))
  | negation body => .opening :: .word "not" :: (body.tokens ++ [.closing])
  | application name params =>
    .opening :: .word "bfunc" :: .name name :: (params.flatMap paramTokens ++ [.closing])

/-- The number of nodes. -/
def size : Expression → Nat
  | quantified _ _ _ _ body | negation body => body.size + 1
  | binary _ left right => left.size + right.size + 1
  | application .. => 1

/-- The quantifier of a node. -/
def quantifier (kind : QuantifierKind) (var pattern : String) (marks : List Mark) : Quantifier :=
  { kind, var, pattern, filter := (Mark.filter? marks).bind fun f => Filter.ofName? f.1 f.2 }

/-- The application of a node. A position that is a number is written with a letter in front. -/
def apply (name : String) (params : List (String × String)) : Application :=
  ⟨name, params.map fun p => (Draft.position p.1, p.2)⟩

/-- All patterns are declared, and all filters have names that are known. -/
def Fits (patterns : ExtTreeMap String (List String)) : Expression → Prop
  | quantified _ _ pattern marks body =>
    patterns.contains pattern = true ∧ (∀ f ∈ Mark.filter? marks, Filter.ofName? f.1 f.2 ≠ none) ∧
      body.Fits patterns
  | binary _ left right => left.Fits patterns ∧ right.Fits patterns
  | negation body => body.Fits patterns
  | application .. => True

/-- What is ruled out, with the repairs of a pattern at one more node. -/
def ruleOut (node : Nat) (pattern : String) (disabled : ExtTreeMap Nat (List (Repair × String))) :
    List Repair → ExtTreeMap Nat (List (Repair × String))
  | [] => disabled
  | repairs => disabled.insert node (repairs.map fun repair => (repair, pattern))

/-- The draft with the nodes of the formula behind those that it has: first the operands, then the node. -/
def extend : Expression → Draft → Draft
  | quantified kind var pattern marks body, d =>
    let d := body.extend d
    { d with
      nodes := d.nodes ++ [.quantified (quantifier kind var pattern marks) (d.nodes.length - 1)]
      disabled := ruleOut d.nodes.length pattern d.disabled (marks.flatMap Mark.repairs) }
  | binary op left right, d =>
    let l := left.extend d
    let r := right.extend l
    { r with nodes := r.nodes ++ [.binary op (l.nodes.length - 1) (r.nodes.length - 1)] }
  | negation body, d =>
    let d := body.extend d
    { d with nodes := d.nodes ++ [.negation (d.nodes.length - 1)] }
  | application name params, d => { d with nodes := d.nodes ++ [.application (apply name params)] }

/-- The formula, numbered in post-order. -/
def numbered : Expression → (start : Nat) → Formula
  | quantified kind var pattern marks body, start =>
    .quantified (start + body.size) (quantifier kind var pattern marks) (body.numbered start)
  | binary op left right, start =>
    .binary (start + left.size + right.size) op (left.numbered start) (right.numbered (start + left.size))
  | negation body, start => .negation (start + body.size) (body.numbered start)
  | application name params, start => .application start (apply name params)

/-- The draft of a rule. -/
def draft (e : Expression) (rule : String) : Draft :=
  e.extend { rule }

/-- The rule with the formula, numbered in post-order. -/
def sentence (e : Expression) (rule : String) : Sentence :=
  { e.draft rule with root := e.size - 1, formula := e.numbered 0 }

end Expression

/-! ## Statements -/

/-- What a script says. -/
inductive Statement where
  /-- A pattern with its attributes is declared. -/
  | pattern (name : String) (attributes : List String)
  | rule (name : String) (formula : Expression)
  | addition (pattern name : String) (attributes : List (String × String))
  | deletion (pattern name : String)
  | update (pattern name : String) (attributes : List (String × String))
  /-- Contexts of these names are critical. -/
  | critical (names : List String)
  | check
deriving DecidableEq

namespace Statement

/-- The tokens of an attribute with its value. -/
def attributeTokens (entry : String × String) : List Token :=
  [.opening, .name entry.1, .value entry.2, .closing]

/-- The tokens between the parentheses. -/
def inner : Statement → List Token
  | pattern name attributes => .word "pattern" :: .name name :: attributes.map .name
  | rule name formula => .word "rule" :: .name name :: formula.tokens
  | addition p name attributes =>
    .word "+" :: .name p :: .value name :: attributes.flatMap attributeTokens
  | deletion p name => [.word "-", .name p, .value name]
  | update p name attributes =>
    .word "~" :: .name p :: .value name :: attributes.flatMap attributeTokens
  | critical names => .word "critical" :: names.map .value
  | check => [.word "check"]

def tokens (s : Statement) : List Token :=
  .opening :: (s.inner ++ [.closing])

/-- Attributes are given once, and do not name the context. -/
def Given (attributes : List (String × String)) : Prop :=
  (attributes.map Prod.fst).Nodup ∧ "name" ∉ attributes.map Prod.fst

/-- What a statement asks for where something is declared: an item, if it is no declaration of a pattern,
and what is declared after it. -/
inductive Asks (d : Declarations) : Statement → Option Item → Declarations → Prop
  /-- A new pattern. -/
  | pattern {name : String} {attributes : List String} (hnew : d.patterns.contains name = false) :
      Asks d (.pattern name attributes) none
        { d with patterns := d.patterns.insert name attributes }
  /-- A rule over declared patterns that can be built. -/
  | rule {name : String} {e : Expression} {s : Sentence} (hfits : e.Fits d.patterns)
      (hbuild : (e.draft name).build (e.size - 1) = .ok s) :
      Asks d (.rule name e) (some (.rule (e.sentence name))) d
  /-- A context with a name that is not live. -/
  | addition {p name : String} {attributes : List (String × String)} {c : Context}
      (hp : d.patterns.contains p = true) (hnew : d.roster.byName? name = none) (hgiven : Given attributes)
      (hc : c = ⟨d.roster.next, (ExtTreeMap.ofList attributes).insert "name" name⟩) :
      Asks d (.addition p name attributes) (some (.change ⟨.addition, p, c⟩))
        { d with roster :=
          { next := d.roster.next + 1
            live := d.roster.live.insert d.roster.next (p, c)
            names := d.roster.names.insert name d.roster.next } }
  /-- A live context of the pattern. -/
  | deletion {p name : String} {id : Nat} {c : Context} (hp : d.patterns.contains p = true)
      (hname : d.roster.byName? name = some id) (hlive : d.roster.live[id]? = some (p, c)) :
      Asks d (.deletion p name) (some (.change ⟨.deletion, p, c⟩))
        { d with roster :=
          { d.roster with live := d.roster.live.erase id, names := d.roster.names.erase name } }
  /-- A live context of the pattern, and attributes that are overwritten. -/
  | update {p name : String} {attributes : List (String × String)} {id : Nat} {c c' : Context}
      (hp : d.patterns.contains p = true) (hname : d.roster.byName? name = some id)
      (hlive : d.roster.live[id]? = some (p, c)) (hgiven : Given attributes) (hne : attributes ≠ [])
      (hc : c' = { c with attributes := c.attributes.insertMany attributes }) :
      Asks d (.update p name attributes) (some (.change ⟨.update, p, c'⟩))
        { d with roster := { d.roster with live := d.roster.live.insert id (p, c') } }
  /-- Live contexts. -/
  | critical {names : List String} {ids : List Nat} (hlive : names.map d.roster.byName? = ids.map some) :
      Asks d (.critical names) (some (.critical ids)) d
  | check : Asks d .check (some .check) d

/-- What statements ask for one after the other: their items, and what is declared in the end. -/
inductive Run : Declarations → List Statement → List Item → Declarations → Prop
  | nil (d : Declarations) : Run d [] [] d
  | cons {d d₁ d₂ : Declarations} {s : Statement} {rest : List Statement} {found : Option Item}
      {items : List Item} (h : Asks d s found d₁) (hrest : Run d₁ rest items d₂) :
      Run d (s :: rest) (found.toList ++ items) d₂

end Statement

/-! ## Drafts in post-order -/

namespace Formula

variable {nodes more : List Shape} {f g : Formula}

theorem ReadFrom.append (h : f.ReadFrom nodes) (more : List Shape) : f.ReadFrom (nodes ++ more) := by
  have hnode {i : Nat} {shape : Shape} (h : nodes[i]? = some shape) : (nodes ++ more)[i]? = some shape := by
    rwa [List.getElem?_append_left (List.getElem?_eq_some_iff.mp h).1]
  induction f with
  | quantified i q body ih => exact ⟨hnode h.1, ih h.2⟩
  | binary i op left right ihl ihr => exact ⟨hnode h.1, ihl h.2.1, ihr h.2.2⟩
  | negation i body ih => exact ⟨hnode h.1, ih h.2⟩
  | application i a => exact hnode h

theorem ReadFrom.unique (hf : f.ReadFrom nodes) : ∀ {g : Formula}, g.ReadFrom nodes →
    f.index = g.index → f = g := by
  induction f with
  | quantified i q body ih =>
    intro g hg hi
    cases g <;> obtain rfl : i = _ := hi
    case quantified q' body' =>
      obtain ⟨rfl, hb⟩ := Shape.quantified.inj (Option.some.inj (hf.1.symm.trans hg.1))
      rw [ih hf.2 hg.2 hb]
    case binary => cases hf.1.symm.trans hg.1
    case negation => cases hf.1.symm.trans hg.1
    case application => cases hf.1.symm.trans hg
  | binary i op left right ihl ihr =>
    intro g hg hi
    cases g <;> obtain rfl : i = _ := hi
    case binary op' left' right' =>
      obtain ⟨rfl, hl, hr⟩ := Shape.binary.inj (Option.some.inj (hf.1.symm.trans hg.1))
      rw [ihl hf.2.1 hg.2.1 hl, ihr hf.2.2 hg.2.2 hr]
    case quantified => cases hf.1.symm.trans hg.1
    case negation => cases hf.1.symm.trans hg.1
    case application => cases hf.1.symm.trans hg
  | negation i body ih =>
    intro g hg hi
    cases g <;> obtain rfl : i = _ := hi
    case negation body' =>
      rw [ih hf.2 hg.2 (Shape.negation.inj (Option.some.inj (hf.1.symm.trans hg.1)))]
    case quantified => cases hf.1.symm.trans hg.1
    case binary => cases hf.1.symm.trans hg.1
    case application => cases hf.1.symm.trans hg
  | application i a =>
    intro g hg hi
    cases g <;> obtain rfl : i = _ := hi
    case application a' => rw [Shape.application.inj (Option.some.inj (hf.symm.trans hg))]
    case quantified => cases hf.symm.trans hg.1
    case binary => cases hf.symm.trans hg.1
    case negation => cases hf.symm.trans hg.1

end Formula

namespace Expression

variable (e : Expression) (d : Draft)

theorem size_le_tokens : e.size ≤ e.tokens.length := by
  induction e with
  | quantified _ _ _ _ _ ih | negation _ ih =>
    simp only [size, tokens, List.length_cons, List.length_append]
    omega
  | binary _ _ _ ihl ihr =>
    simp only [size, tokens, List.length_cons, List.length_append]
    omega
  | application => exact Nat.succ_pos _

theorem index_numbered (start : Nat) : (e.numbered start).index + 1 = start + e.size := by
  cases e <;> simp only [numbered, Formula.index, size] <;> omega

@[simp] theorem length_extend : (e.extend d).nodes.length = d.nodes.length + e.size := by
  induction e generalizing d with
  | quantified _ _ _ _ _ ih => simp only [extend, List.length_append, List.length_singleton, ih, size]; omega
  | binary _ _ _ ihl ihr => simp only [extend, List.length_append, List.length_singleton, ihl, ihr, size]; omega
  | negation _ ih => simp only [extend, List.length_append, List.length_singleton, ih, size]; omega
  | application => simp only [extend, List.length_append, List.length_singleton, size]

theorem exists_nodes_extend : ∃ more, (e.extend d).nodes = d.nodes ++ more := by
  induction e generalizing d with
  | quantified _ _ _ _ _ ih =>
    obtain ⟨more, h⟩ := ih d
    exact ⟨more ++ [_], by rw [extend, h, List.append_assoc]⟩
  | binary _ left _ ihl ihr =>
    obtain ⟨more, h⟩ := ihl d
    obtain ⟨more', h'⟩ := ihr (left.extend d)
    exact ⟨more ++ (more' ++ [_]), by rw [extend, h', h, List.append_assoc, List.append_assoc]⟩
  | negation _ ih =>
    obtain ⟨more, h⟩ := ih d
    exact ⟨more ++ [_], by rw [extend, h, List.append_assoc]⟩
  | application => exact ⟨[_], rfl⟩

theorem index_numbered_eq : (e.numbered d.nodes.length).index = (e.extend d).nodes.length - 1 := by
  have h := e.index_numbered d.nodes.length
  rw [length_extend]
  omega

/-- **The draft in post-order** holds the formula. -/
theorem readFrom_extend : (e.numbered d.nodes.length).ReadFrom (e.extend d).nodes := by
  have hlast {nodes : List Shape} {shape : Shape} {i : Nat} (hi : i = nodes.length) :
      (nodes ++ [shape])[i]? = some shape := by
    rw [hi, List.getElem?_concat_length]
  induction e generalizing d with
  | quantified kind var pattern marks body ih =>
    refine ⟨?_, (ih d).append _⟩
    rw [body.index_numbered_eq d]
    exact hlast (body.length_extend d).symm
  | binary op left right ihl ihr =>
    have hleft := ihl d
    have hright := ihr (left.extend d)
    obtain ⟨more, hmore⟩ := right.exists_nodes_extend (left.extend d)
    have hli := left.index_numbered_eq d
    have hri := right.index_numbered_eq (left.extend d)
    rw [left.length_extend d] at hright hri
    refine ⟨?_, ?_, hright.append _⟩
    · rw [hli, hri]
      exact hlast (by rw [length_extend, length_extend])
    · change Formula.ReadFrom ((right.extend (left.extend d)).nodes ++ _) _
      rw [hmore, List.append_assoc]
      exact hleft.append _
  | negation body ih =>
    refine ⟨?_, (ih d).append _⟩
    rw [body.index_numbered_eq d]
    exact hlast (body.length_extend d).symm
  | application name params => exact hlast rfl

/-- **What is built** from the draft of a rule is its formula, numbered in post-order. -/
theorem sentence_of_build {name : String} {s : Sentence} (h : (e.draft name).build (e.size - 1) = .ok s) :
    s = e.sentence name := by
  unfold Draft.build Draft.read at h
  split_ifs at h
  cases hf : Draft.readNode (e.draft name).rule (e.draft name).nodes (Draft.fuel (e.draft name).nodes)
      (e.size - 1) [] {} with
  | error => 
    rw [Routine.value_error hf] at h
    cases h
  | ok f b =>
    rw [Routine.value_ok hf] at h
    cases h
    obtain ⟨hi, hread, -⟩ := Draft.readNode_ok hf (List.nil_subset _)
    have hnumbered := e.readFrom_extend { rule := name }
    have hindex := e.index_numbered 0
    rw [hread.unique hnumbered (hi.trans (by change _ = (e.numbered 0).index; omega))]
    rfl

end Expression

end RuleMonitor
