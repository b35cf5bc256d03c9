import Std.Data.ExtTreeMap
import Std.Data.ExtTreeSet

/-!
# Contexts and changes

A context is a fact of some pattern: an identity and a tuple of textual attributes. The identity is
all that distinguishes two contexts, their attributes may agree. An environment binds the variables
of a rule to contexts. A change adds a context to a pattern, deletes one, or gives one new
attributes.

* `Context.name`: the attribute `name`, or the identity if there is none.
* `Env.lookup`: the context of a variable, where a substitution takes precedence.
* `ChangeKind.isOpposite`: additions and deletions are opposite to each other.
-/

namespace RuleMonitor

open Std (ExtTreeMap ExtTreeSet)

/-- The attributes of a context. -/
abbrev Attributes := ExtTreeMap String String

/-- A fact of some pattern. -/
structure Context where
  /-- The identity. -/
  id : Nat
  attributes : Attributes
deriving DecidableEq

namespace Context

/-- The value of an attribute. -/
def attribute? (c : Context) (name : String) : Option String :=
  c.attributes[name]?

/-- The name a context is shown by. -/
def name (c : Context) : String :=
  match c.attribute? "name" with
  | some name => name
  | none => s!"ctx#{c.id}"

/-- The context with one attribute overwritten. -/
def withAttribute (c : Context) (name value : String) : Context :=
  { c with attributes := c.attributes.insert name value }

end Context

/-! ## Environments -/

/-- The contexts that variables are bound to. -/
abbrev Env := ExtTreeMap String Context

/-- A variable read as another context. -/
structure Substitution where
  var : String
  context : Context
deriving DecidableEq

/-- The context of a variable. -/
def Env.lookup (env : Env) (subst : Option Substitution) (var : String) : Option Context :=
  match subst with
  | some s => if s.var = var then some s.context else env[var]?
  | none => env[var]?

/-! ## Changes -/

/-- The kinds of changes, in the order in which they are listed. -/
inductive ChangeKind where
  | addition
  | deletion
  | update
deriving DecidableEq, Repr

namespace ChangeKind

/-- The sign that stands for the kind. -/
def sign : ChangeKind → String
  | addition => "+"
  | deletion => "-"
  | update => "~"

/-- One kind undoes the other. -/
def isOpposite : ChangeKind → ChangeKind → Bool
  | addition, deletion | deletion, addition => true
  | _, _ => false

end ChangeKind

/-- A change of a pattern. The context of a deletion is the value deleted, that of an update the new
value. -/
structure Change where
  kind : ChangeKind
  pattern : String
  context : Context
deriving DecidableEq

namespace Change

/-- The identity of the context changed. -/
def id (c : Change) : Nat :=
  c.context.id

/-- The form in which a change is shown. -/
def render (c : Change) : String :=
  s!"({c.kind.sign} {c.pattern} {c.context.name})"

end Change

end RuleMonitor
