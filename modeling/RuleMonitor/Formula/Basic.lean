import RuleMonitor.Context

/-!
# Formulas

A rule is a closed first-order formula. Its quantifiers range over the contexts of a pattern, which a
filter may restrict, and its leaves apply named predicates to the contexts of variables. Every node
carries the index under which the rule lists it.

* `Formula`: the nodes below one node, as a tree.
* `QuantifierKind.fold`: the truth of a quantifier from the truths of its instances.
* `Quantifier.admits`: the contexts a quantifier ranges over in an environment.
-/

namespace RuleMonitor

/-- The kinds of quantifiers. -/
inductive QuantifierKind where
  | universal
  | existential
deriving DecidableEq, Repr

namespace QuantifierKind

/-- The word for the quantifier. -/
def word : QuantifierKind → String
  | universal => "forall"
  | existential => "exists"

/-- The truth without any instance. -/
def unit : QuantifierKind → Bool
  | universal => true
  | existential => false

/-- The truth from the truths of the instances. -/
def fold : QuantifierKind → List Bool → Bool
  | universal, truths => truths.all id
  | existential, truths => truths.any id

/-- The truth of the instances that explain the quantifier: false ones violate a universal
quantifier, true ones satisfy an existential one. -/
def witnessTruth (k : QuantifierKind) : Bool :=
  !k.unit

end QuantifierKind

/-- A restriction of the contexts a quantifier ranges over. -/
inductive Filter where
  /-- Identities greater than that of the context of `dep`. -/
  | greater (dep : String)
deriving DecidableEq, Repr

namespace Filter

/-- The filter with a name. -/
def ofName? (name dep : String) : Option Filter :=
  if name = "greater" then some (greater dep) else none

/-- The variable that the filter depends on. -/
def dep : Filter → String
  | greater dep => dep

/-- The contexts that pass the filter; none do while the variable is unbound. -/
def admits (env : Env) (c : Context) : Filter → Bool
  | greater dep => match env[dep]? with
    | some bound => bound.id < c.id
    | none => false

/-- The form in which the filter is written. -/
def render : Filter → String
  | greater dep => s!":filter greater {dep}"

end Filter

/-- A quantifier without its body. -/
structure Quantifier where
  kind : QuantifierKind
  /-- The variable bound. -/
  var : String
  /-- The pattern the variable ranges over. -/
  pattern : String
  filter : Option Filter := none
deriving DecidableEq, Repr

namespace Quantifier

/-- The contexts of the pattern that the variable ranges over. -/
def admits (q : Quantifier) (env : Env) (c : Context) : Bool :=
  match q.filter with
  | some filter => filter.admits env c
  | none => true

/-- The environment of an instance of the body. -/
def bind (q : Quantifier) (env : Env) (c : Context) : Env :=
  env.insert q.var c

end Quantifier

/-- A predicate applied to variables, each in a named position. -/
structure Application where
  name : String
  /-- The positions and the variables in them. -/
  params : List (String × String)
deriving DecidableEq, Repr

/-- The connectives with two operands. -/
inductive Connective where
  | and
  | or
  | implies
deriving DecidableEq, Repr

namespace Connective

/-- The word for the connective. -/
def word : Connective → String
  | and => "and"
  | or => "or"
  | implies => "implies"

/-- The truth table. -/
def eval : Connective → Bool → Bool → Bool
  | and, a, b => a && b
  | or, a, b => a || b
  | implies, a, b => !a || b

end Connective

/-- A formula, each node with its index. -/
inductive Formula where
  | quantified (index : Nat) (q : Quantifier) (body : Formula)
  | binary (index : Nat) (op : Connective) (left right : Formula)
  | negation (index : Nat) (body : Formula)
  | application (index : Nat) (a : Application)
deriving DecidableEq, Repr

/-- A place where a quantifier occurs. -/
structure Binder where
  /-- The index of the quantifier. -/
  index : Nat
  quantifier : Quantifier
  /-- The quantifier stands under an even number of negations. -/
  positive : Bool
  /-- The height of the body. -/
  depth : Nat
deriving DecidableEq, Repr

namespace Formula

/-- The index of the root. -/
def index : Formula → Nat
  | quantified i .. | binary i .. | negation i .. | application i .. => i

/-- The number of nodes on the longest path. -/
def height : Formula → Nat
  | quantified _ _ body | negation _ body => body.height + 1
  | binary _ _ left right => max left.height right.height + 1
  | application .. => 1

/-- The quantifiers in pre-order, in a formula of the given polarity. -/
def binders (positive : Bool) : Formula → List Binder
  | quantified i q body => ⟨i, q, positive, body.height⟩ :: body.binders positive
  | binary _ op left right =>
    left.binders (if op = .implies then !positive else positive) ++ right.binders positive
  | negation _ body => body.binders !positive
  | application .. => []

/-- The formula quantifies over one of the patterns. -/
def ranges (patterns : List String) : Formula → Bool
  | quantified _ q body => patterns.contains q.pattern || body.ranges patterns
  | binary _ _ left right => left.ranges patterns || right.ranges patterns
  | negation _ body => body.ranges patterns
  | application .. => false

/-- The formula and all formulas below it, in pre-order. -/
def subformulas : Formula → List Formula
  | f@(quantified _ _ body) | f@(negation _ body) => f :: body.subformulas
  | f@(binary _ _ left right) => f :: (left.subformulas ++ right.subformulas)
  | f@(application ..) => [f]

/-- The first formula at an index, in pre-order. -/
def at? (index : Nat) : Formula → Option Formula
  | f@(quantified i _ body) | f@(negation i body) => if i = index then some f else body.at? index
  | f@(binary i _ left right) =>
    if i = index then some f
    else
      match left.at? index with
      | some g => some g
      | none => right.at? index
  | f@(application i _) => if i = index then some f else none

/-- The quantifiers without a quantifier above them. -/
def topmost : Formula → List Nat
  | quantified i .. => [i]
  | binary _ _ left right => left.topmost ++ right.topmost
  | negation _ body => body.topmost
  | application .. => []

/-- The text of a predicate application. -/
def renderApplication (a : Application) : String :=
  s!"(bfunc {a.name}" ++ String.join (a.params.map fun p => s!" ({p.1} {p.2})") ++ ")"

/-- The text of a quantifier in front of its body. -/
def renderQuantifier (q : Quantifier) : String :=
  s!"{q.kind.word} {q.var} {q.pattern} " ++
    match q.filter with
    | some filter => filter.render ++ " "
    | none => ""

/-- The text of a formula. -/
def render : Formula → String
  | quantified _ q body => "(" ++ renderQuantifier q ++ body.render ++ ")"
  | binary _ op left right => s!"({op.word} " ++ left.render ++ " " ++ right.render ++ ")"
  | negation _ body => "(not " ++ body.render ++ ")"
  | application _ a => renderApplication a

end Formula

end RuleMonitor
