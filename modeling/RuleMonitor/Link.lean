import Std.Data.ExtTreeMap
import Std.Data.ExtTreeSet

/-!
# Links

A link explains the truth of a formula: it binds variables to contexts that violate the formula, or
that satisfy it. The links of a node form a set, ordered by kind, violations first, and then by their
bindings.

* `LinkSet.product`: the unions of a link of either set; an empty set is neutral.
* `LinkSet.minimal`: the links that bind nothing superfluous.
* `LinkSet.rename`: the links after a context took the place of another one.
-/

namespace RuleMonitor

open Std (ExtTreeMap ExtTreeSet TransCmp LawfulEqCmp ReflCmp)

/-- The kinds of links. -/
inductive LinkKind where
  | violated
  | satisfied
deriving DecidableEq, Repr

namespace LinkKind

/-- The other kind. -/
def flip : LinkKind → LinkKind
  | violated => satisfied
  | satisfied => violated

/-- The word for the kind. -/
def word : LinkKind → String
  | violated => "violated"
  | satisfied => "satisfied"

/-- The place in the order of kinds. -/
def rank : LinkKind → Nat
  | violated => 0
  | satisfied => 1

theorem rank_injective {a b : LinkKind} (h : a.rank = b.rank) : a = b := by
  cases a <;> cases b <;> first | rfl | simp [rank] at h

end LinkKind

/-- Variables bound to contexts. -/
abbrev Bindings := ExtTreeMap String Nat

/-- An explanation of a truth. -/
structure Link where
  kind : LinkKind
  bindings : Bindings
deriving DecidableEq

namespace Link

/-- The bindings of a link in the order of their variables. -/
def entries (l : Link) : List (String × Nat) :=
  l.bindings.toList

/-- The order of bindings: by variable, then by context. -/
def compareEntries : String × Nat → String × Nat → Ordering :=
  compareLex (compareOn Prod.fst) (compareOn Prod.snd)

instance : TransCmp compareEntries := by unfold compareEntries; infer_instance

instance : LawfulEqCmp compareEntries where
  compare_self := ReflCmp.compare_self
  eq_of_compare {a b} h := by
    obtain ⟨h₁, h₂⟩ : compare a.1 b.1 = .eq ∧ compare a.2 b.2 = .eq := by
      simpa [compareEntries, compareLex, compareOn, Ordering.then_eq_eq] using h
    exact Prod.ext (LawfulEqCmp.eq_of_compare h₁) (LawfulEqCmp.eq_of_compare h₂)

local instance : Ord (String × Nat) := ⟨compareEntries⟩

local instance : Std.TransOrd (String × Nat) := inferInstanceAs (TransCmp compareEntries)

local instance : Std.LawfulEqOrd (String × Nat) := inferInstanceAs (LawfulEqCmp compareEntries)

/-- The order of links: by kind, then by bindings. -/
def order : Link → Link → Ordering :=
  compareLex (compareOn fun l => l.kind.rank) (compareOn entries)

instance : TransCmp order := by unfold order; infer_instance

instance : LawfulEqCmp order where
  compare_self := ReflCmp.compare_self
  eq_of_compare {a b} h := by
    obtain ⟨h₁, h₂⟩ : compare a.kind.rank b.kind.rank = .eq ∧ compare a.entries b.entries = .eq := by
      simpa [order, compareLex, compareOn, Ordering.then_eq_eq] using h
    have hk : a.kind = b.kind := LinkKind.rank_injective (LawfulEqCmp.eq_of_compare h₁)
    have hb : a.bindings = b.bindings := ExtTreeMap.toList_inj.1 (LawfulEqCmp.eq_of_compare h₂)
    cases a; cases b; simp_all

/-- The text of a link. -/
def render (l : Link) : String :=
  s!"({l.kind.word}" ++ String.join (l.entries.map fun e => s!" ({e.1} #{e.2})") ++ ")"

/-- The bindings of both links, of the kind of the first. -/
def merge (a b : Link) : Link :=
  { a with bindings := b.entries.foldl (fun m e => m.insert e.1 e.2) a.bindings }

/-- The link binds strictly more than `other`, which is of the same kind. -/
def subsumedBy (l other : Link) : Bool :=
  l.kind = other.kind && other.bindings.size < l.bindings.size &&
    other.entries.all fun e => l.bindings[e.1]? = some e.2

/-- The link with one more binding, and of a given kind. -/
def bind (l : Link) (kind : LinkKind) (var : String) (id : Nat) : Link :=
  ⟨kind, l.bindings.insert var id⟩

/-- The link where `var` is bound to `new` if it was bound to `old`. -/
def rename (l : Link) (var : String) (old new : Nat) : Link :=
  if l.bindings[var]? = some old then { l with bindings := l.bindings.insert var new } else l

end Link

/-- A set of links. -/
abbrev LinkSet := ExtTreeSet Link Link.order

namespace LinkSet

/-- The links that `f` makes of the links of a set. -/
def image (f : Link → Link) (s : LinkSet) : LinkSet :=
  .ofList (s.toList.map f) Link.order

/-- The unions of a link of either set, of the kind of the first; an empty set is neutral. -/
def product (a b : LinkSet) : LinkSet :=
  if a.isEmpty then b
  else if b.isEmpty then a
  else .ofList (a.toList.flatMap fun l => b.toList.map l.merge) Link.order

/-- The same bindings, of the other kind. -/
def flipped (s : LinkSet) : LinkSet :=
  s.image fun l => { l with kind := l.kind.flip }

/-- The links with one more binding, and of a given kind; of an empty set, the binding alone. -/
def withBinding (s : LinkSet) (kind : LinkKind) (var : String) (id : Nat) : LinkSet :=
  if s.isEmpty then .ofList [⟨kind, (∅ : Bindings).insert var id⟩] Link.order
  else s.image fun l => l.bind kind var id

/-- The links that do not bind strictly more than another one. -/
def minimal (s : LinkSet) : List Link :=
  let links := s.toList
  links.filter fun l => !links.any l.subsumedBy

/-- Some link binds `var` to `id`. -/
def mentions (s : LinkSet) (var : String) (id : Nat) : Bool :=
  s.toList.any fun l => l.bindings[var]? = some id

/-- The links where `var` is bound to `new` wherever it was bound to `old`. -/
def rename (s : LinkSet) (var : String) (old new : Nat) : LinkSet :=
  s.image fun l => l.rename var old new

end LinkSet

end RuleMonitor
