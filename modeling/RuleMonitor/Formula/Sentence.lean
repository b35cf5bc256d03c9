import RuleMonitor.Formula.Draft
import RuleMonitor.Truth

/-!
# Sentences

A sentence is a rule as it is checked: the identifier, the formula read from a draft, and the nodes of
the draft, among which those that the root does not reach keep their place. In a sentence each
variable and each pattern is bound by one quantifier, which is found under either name.

* `Sentence.quantifierOf?`, `Sentence.depthOf?`: the quantifier over a pattern, and its depth.
* `Sentence.effectOf`: what a kind of change of a pattern can do to the truth of the rule.
* `Sentence.releaseConditions`: how changes of the pattern of a quantifier can move its truth.
-/

namespace RuleMonitor

open Std (ExtTreeMap ExtTreeSet)

/-- What a change can do to the truth of a rule. -/
inductive Effect where
  /-- Turn it from true to false. -/
  | plus
  /-- Turn it from false to true. -/
  | minus
  | both
  | none
deriving DecidableEq, Repr

namespace Effect

/-- The word for an effect. -/
def word : Effect → String
  | plus => "plus"
  | minus => "minus"
  | both => "both"
  | none => "none"

/-- The change can falsify the rule. -/
def isPlus : Effect → Bool
  | plus | both => true
  | minus | none => false

/-- The change can make the rule true. -/
def isMinus : Effect → Bool
  | minus | both => true
  | plus | none => false

end Effect

/-- The truths that changes of a pattern can move a quantifier to, and release it from. -/
structure ReleaseConditions where
  reached : List (ChangeKind × List Truth)
  released : List (ChangeKind × List Truth)
deriving DecidableEq, Repr

/-- A rule that is well formed: a draft with the formula that is read from it. -/
structure Sentence extends Draft where
  /-- The index of the root. -/
  root : Nat
  /-- The formula below the root. -/
  formula : Formula
deriving DecidableEq

/-- The sentence below a root of a draft. -/
def Draft.build (d : Draft) (root : Nat) : Except Failure Sentence :=
  match d.read root with
  | .ok formula => .ok { d with root, formula }
  | .error e => .error e

namespace Sentence

/-- The quantifiers of the formula. -/
def binders (s : Sentence) : List Binder :=
  s.formula.binders true

/-- The place where a pattern is quantified over. -/
def binderOf? (s : Sentence) (pattern : String) : Option Binder :=
  s.binders.find? fun b => b.quantifier.pattern = pattern

/-- The patterns quantified over, in order. -/
def patterns (s : Sentence) : List String :=
  (ExtTreeSet.ofList (s.binders.map fun b => b.quantifier.pattern)).toList

/-- The formula quantifies over a pattern. -/
def mentions (s : Sentence) (pattern : String) : Bool :=
  (s.binderOf? pattern).isSome

/-- The pattern of a variable. -/
def patternOf? (s : Sentence) (var : String) : Option String :=
  (s.binders.find? fun b => b.quantifier.var = var).map fun b => b.quantifier.pattern

/-- The index of the quantifier over a pattern. -/
def quantifierOf? (s : Sentence) (pattern : String) : Option Nat :=
  (s.binderOf? pattern).map (·.index)

/-- The depth of a pattern, the height of what is quantified. -/
def depthOf? (s : Sentence) (pattern : String) : Option Nat :=
  (s.binderOf? pattern).map (·.depth)

/-- The patterns by their depths. -/
def patternsByDepth (s : Sentence) : ExtTreeMap Nat (ExtTreeSet String) :=
  s.binders.foldl (fun m b => m.insert b.depth ((m.getD b.depth ∅).insert b.quantifier.pattern)) ∅

/-- The quantifier at an index. -/
def quantifierAt? (s : Sentence) (index : Nat) : Option Quantifier :=
  s.nodes[index]?.bind Shape.quantifier?

/-- The pattern that the node at an index quantifies over. -/
def patternAt? (s : Sentence) (index : Nat) : Option String :=
  (s.quantifierAt? index).map (·.pattern)

/-- The formula below a node that the root reaches. -/
def formulaAt (s : Sentence) (index : Nat) : Except Failure Formula :=
  match s.formula.at? index with
  | some f => .ok f
  | none => .error (Draft.outOfRange s.nodes.length index)

/-- The filter of some node depends on a variable. -/
def filterDependsOn (s : Sentence) (var : String) : Bool :=
  s.nodes.any fun shape =>
    match shape.quantifier?.bind (·.filter) with
    | some filter => filter.dep = var
    | none => false

/-- The effect of a kind of change of a pattern. A context more under a universal quantifier, or a
context less under an existential one, can falsify the quantifier, and negations turn that round. -/
def effectOf (s : Sentence) (kind : ChangeKind) (pattern : String) : Effect :=
  match s.binderOf? pattern with
  | none => .none
  | some b =>
    let falsifies := (b.quantifier.kind = .universal) = b.positive
    match kind with
    | .update => .both
    | .addition => if falsifies then .plus else .minus
    | .deletion => if falsifies then .minus else .plus

/-- The effect of a change. -/
def effect (s : Sentence) (change : Change) : Effect :=
  s.effectOf change.kind change.pattern

/-- The release conditions of a quantifier with a known truth. -/
def releaseConditions (s : Sentence) (index : Nat) (truth : Truth) : Option ReleaseConditions := do
  let q ← s.quantifierAt? index
  let value ← truth.toBool?
  if value = q.kind.unit then
    return ⟨[(.addition, [.unknown])], [(.deletion, [.unknown])]⟩
  else
    return ⟨[(.deletion, [.ofBool value, .unknown])], [(.addition, [.unknown])]⟩

/-- The text of the formula. -/
def render (s : Sentence) : String :=
  s.formula.render

end Sentence

end RuleMonitor
