import RuleMonitor.Evaluation.Full

/-!
# Explanations

Links explain the truth of a node. A universal quantifier is explained by its false branches, an
existential one by its true branches, each with the binding of the variable. A connective takes the
unions of links of its operands when all of them are needed, and the links of the operands that
suffice otherwise. Negated operands are explained by links of the other kind.

When links are kept minimal, only a false rule is explained, and only the nodes whose links feed those
of the root are visited; these are the substantial nodes of the cycle. The links of a node that the
cycle does not affect are taken over if they are up to date, and so are the old links of a quantifier
below which only new branches have to be looked at.

* `Connective.feeds`, `Connective.explain`: the operands that matter, and the links made of theirs.
* `Setting.explain`: the links of a node, with the links of all nodes visited.
-/

namespace RuleMonitor

/-- The kind of the links that a quantifier generates. -/
def QuantifierKind.linkKind : QuantifierKind → LinkKind
  | universal => .violated
  | existential => .satisfied

namespace Connective

/-- The truths of both operands are needed for the truth of the connective. -/
def needsBoth : Connective → Bool → Bool
  | and, truth => truth
  | or, truth | implies, truth => !truth

/-- The operands that suffice for the connective when not both are needed, by their truths. -/
def sufficient : Connective → Bool → Bool → Bool × Bool
  | and, a, b => (!a, !b)
  | or, a, b => (a, b)
  | implies, a, b => (!a, b)

/-- The operands whose links feed those of a connective with a truth. -/
def feeds (op : Connective) (truth a b : Bool) : Bool × Bool :=
  if op.needsBoth truth then (true, true) else op.sufficient a b

/-- The links of the first operand, flipped if the connective negates it. -/
def firstLinks (op : Connective) (links : LinkSet) : LinkSet :=
  if op = implies then links.flipped else links

/-- The links of a connective with a truth, from the truths and the links of its operands. -/
def explain (op : Connective) (truth a b : Bool) (left right : LinkSet) : LinkSet :=
  let l := op.firstLinks left
  if op.needsBoth truth then l.product right
  else
    let takes := op.sufficient a b
    (if takes.1 then l else ∅) ∪ (if takes.2 then right else ∅)

end Connective

/-- The links of a node, the node with the links found below it, and the slots visited. -/
structure Explained where
  links : LinkSet
  node : Node
  visited : List Nat

namespace Setting

/-- The node with its links. -/
def explained (s : Setting) (c : Cell) (kids : List Node) (links : LinkSet) (visited : List Nat) :
    Explained :=
  ⟨links, .mk { c with links := some links } kids,
    if s.minimalLinks then c.index :: visited else visited⟩

/-- The node taken over with the links that it has. -/
def takenOver (s : Setting) (n : Node) (links : LinkSet) : Explained :=
  ⟨links, n, if s.minimalLinks then [n.index] else []⟩

/-- The links of a branch, with the binding of the quantifier. -/
def branchLinks (q : Quantifier) (e : Explained) : Except Failure LinkSet := do
  return e.links.withBinding q.kind.linkKind q.var (← boundOf e.node)

/-- The links of a quantifier: those it starts from and those of the branches that are witnesses. -/
def collectLinks (q : Quantifier) : LinkSet → List (Bool × Explained) → Except Failure LinkSet
  | links, [] => .ok links
  | links, (witness, e) :: rest => do
    if witness then
      let more ← branchLinks q e
      collectLinks q (links ∪ more) rest
    else collectLinks q links rest

/-- The branches of a quantifier, each with whether it is a witness. -/
def judge (q : Quantifier) (kids : List Node) : Except Failure (List (Bool × Node)) :=
  kids.mapM fun kid => do return ((← kid.cell.stagedTruth) == q.kind.witnessTruth, kid)

/-- The links of a quantifier that are still right are kept, if the cycle affects the quantifier but
not its body and no branch was removed. -/
def keptLinks (s : Setting) (body : Formula) (c : Cell) (upToDate : Bool) : Option LinkSet :=
  if !s.focus.affects body && !c.pruned && upToDate then c.links else none

/-- The links of a node, with those of all nodes visited below it. `was` are the slots that were
substantial in the cycle before. -/
def explain (s : Setting) (was : Nat → Bool) : Formula → Node → Eval Explained
  | f@(.quantified i q body), n@(.mk c kids) => do
    let upToDate := !s.minimalLinks || was c.index
    let affected := s.focus.affects f
    match if !affected && upToDate then c.links else none with
    | some links => return s.takenOver n links
    | none =>
      let kept := if affected then s.keptLinks body c upToDate else none
      let (links, before, look) := match kept with
        | some links => (links, n.oldKids, n.freshKids)
        | none => (∅, [], kids)
      let judged ← Routine.ofExcept (judge q look)
      let visits (witness : Bool) : Bool := witness || !s.minimalLinks
      let visit : Bool × Node → Eval (Bool × Explained)
        | (witness, kid) =>
          if visits witness then do return (witness, ← explain s was body kid)
          else return (witness, ⟨∅, kid, []⟩)
      let results ← Eval.forEach (s.handsOut i (judged.countP fun k => visits k.1)) visit judged
      let all ← Routine.ofExcept (collectLinks q links results)
      return s.explained c (before ++ results.map fun r => r.2.node) all
        (results.flatMap fun r => r.2.visited)
  | f@(.binary i op left right), n@(.mk c kids) => do
    let upToDate := !s.minimalLinks || was c.index
    match if !s.focus.affects f && upToDate then c.links else none with
    | some links => return s.takenOver n links
    | none =>
      match kids with
      | [a, b] =>
        let ta ← Routine.ofExcept a.cell.stagedTruth
        let tb ← Routine.ofExcept b.cell.stagedTruth
        let truth ← Routine.ofExcept c.stagedTruth
        let feeds := op.feeds truth ta tb
        let ea ← if feeds.1 || !s.minimalLinks then explain s was left a else pure ⟨∅, a, []⟩
        let eb ← if feeds.2 || !s.minimalLinks then explain s was right b else pure ⟨∅, b, []⟩
        return s.explained c [ea.node, eb.node] (op.explain truth ta tb ea.links eb.links)
          (ea.visited ++ eb.visited)
      | _ => throw (missingKid i kids.length)
  | f@(.negation i body), n@(.mk c kids) => do
    let upToDate := !s.minimalLinks || was c.index
    match if !s.focus.affects f && upToDate then c.links else none with
    | some links => return s.takenOver n links
    | none =>
      match kids with
      | [a] =>
        let ea ← explain s was body a
        return s.explained c [ea.node] ea.links.flipped ea.visited
      | _ => throw (missingKid i kids.length)
  | f@(.application ..), n@(.mk c kids) => do
    let upToDate := !s.minimalLinks || was c.index
    match if !s.focus.affects f && upToDate then c.links else none with
    | some links => return s.takenOver n links
    | none => return s.explained c kids ∅ []

/-- The links of an instantiation from its root; with minimal links, only if the root is false. -/
def explainTree (s : Setting) (t : Tree) : Eval Tree := do
  match t.root with
  | none => return t
  | some root =>
    if s.minimalLinks && (← Routine.ofExcept root.cell.stagedTruth) then
      return t
    else
      let e ← explain s t.wasSubstantial.contains s.sentence.formula root
      return { t with root := some e.node }.markSubstantial e.visited

end Setting

end RuleMonitor
