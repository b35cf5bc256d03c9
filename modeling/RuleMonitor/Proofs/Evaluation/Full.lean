import RuleMonitor.Evaluation.Full
import RuleMonitor.Proofs.Routines
import RuleMonitor.Proofs.Failures

/-!
# Full evaluation of instances

Evaluation writes truths to the nodes that it visits and leaves everything else alone. What it finds
is the truth of the formula, in an environment where a substitution is read into all nodes.

* `Node.Traced`: what evaluation may change; `Evaluated`: a truth found with its node.
* `Evaluated.quantified`, `Evaluated.binary`, `Evaluated.negation`: truths from those of branches.
* `Setting.decided_branches`: a quantifier whose branches are all looked at.
* **`Setting.evaluate_decided`**: evaluation finds the truth of an instance if the formula evaluates,
  and fails if it does not; **`Setting.evaluate_yields`**: it finds the truth.
-/

namespace RuleMonitor

open Std (ExtTreeMap)

/-! ## Substitutions -/

/-- The environment with a substitution read into it. -/
def Env.substitute (env : Env) : Option Substitution → Env
  | some s => env.insert s.var s.context
  | none => env

theorem Env.lookup_substitute (env : Env) (subst : Option Substitution) (var : String) :
    (env.substitute subst).lookup none var = env.lookup subst var := by
  cases subst with
  | none => rfl
  | some s => exact Map.getElem?_insert env s.var var s.context

theorem Registry.resolve_substitute (name : String) (env : Env) (subst : Option Substitution)
    (params : List (String × String)) :
    resolve name (env.substitute subst) none params = resolve name env subst params := by
  induction params with
  | nil => rfl
  | cons p params ih => rw [resolve, resolve, Env.lookup_substitute, ih]

theorem Registry.eval_substitute (r : Registry) (a : Application) (env : Env)
    (subst : Option Substitution) : r.eval a (env.substitute subst) none = r.eval a env subst := by
  rw [eval, eval, resolve_substitute]

namespace Cell

/-- The cell with a substitution read into its environment. -/
def substitute (subst : Option Substitution) (c : Cell) : Cell :=
  { c with env := c.env.substitute subst }

/-- The cell without what evaluation writes before truths are committed. -/
def outer (c : Cell) : Cell :=
  { c with staged := .unknown, pending := false, branchTruths := ∅ }

end Cell

theorem Node.map_substitute_none (n : Node) : n.map (Cell.substitute none) = n :=
  map_eq_self fun _ _ => rfl

theorem Node.kids_substitute_none (kids : List Node) :
    kids.map (Node.map (Cell.substitute none)) = kids :=
  List.map_id'' map_substitute_none kids

/-! ## What evaluation changes -/

/-- The nodes differ in truths alone: if they are committed, none waits that did not wait before, and
if they are held, the committed ones are as before. -/
structure Node.Traced (stage : Stage) (n n' : Node) : Prop where
  base : n'.map Cell.base = n.map Cell.base
  calm : stage = .commit → n.Calm → n'.Calm
  held : stage = .hold → n'.map Cell.outer = n.map Cell.outer

/-- The truth of a formula was found for a node, answered with the node after that. -/
structure Evaluated (r : Registry) (P : Pools) (stage : Stage) (subst : Option Substitution)
    (f : Formula) (n : Node) (b : Bool × Node) : Prop where
  truth : b.1 = f.holds r P (n.cell.env.substitute subst)
  traced : n.Traced stage b.2
  found : f.Every (Formula.Found r P) (b.2.map (Cell.substitute subst))

namespace Node

variable {stage : Stage} {n n' : Node}

theorem Traced.refl (stage : Stage) (n : Node) : n.Traced stage n :=
  ⟨rfl, fun _ h => h, fun _ => rfl⟩

theorem Traced.place_eq (h : n.Traced stage n') : n'.place = n.place := by
  refine Cell.place_eq_of_base ?_
  rw [← cell_map Cell.base n', h.base, cell_map]

theorem Traced.cell_env (h : n.Traced stage n') : n'.cell.env = n.cell.env :=
  congrArg Prod.snd h.place_eq

theorem Traced.cell_bound (h : n.Traced stage n') : n'.cell.bound = n.cell.bound :=
  congrArg Prod.fst h.place_eq

theorem base_write (c : Cell) (truths : ExtTreeMap Nat Truth) (stage : Stage) (t : Truth) :
    (Cell.write { c with branchTruths := truths } stage t).base = c.base := by
  cases stage <;> rfl

theorem Traced.conclude {kids kids' : List Node} (h : List.Forall₂ (Traced stage) kids kids')
    (c : Cell) (truths : ExtTreeMap Nat Truth) (t : Bool) :
    (Node.mk c kids).Traced stage
      (Setting.conclude { c with branchTruths := truths } stage t kids').2 := by
  unfold Setting.conclude
  refine ⟨?_, fun hs hc => ?_, fun hs => ?_⟩
  · rw [map_mk, map_mk, base_write]
    exact congrArg _ (Lists.map_eq_of_forall₂ h fun a b hab => hab.base.symm).symm
  · subst hs
    rw [Calm, cells_mk, List.forall_mem_cons]
    refine ⟨hc c (cell_mem_cells _), fun c' hc' => ?_⟩
    obtain ⟨kid', hk', hc'⟩ := List.mem_flatMap.mp hc'
    obtain ⟨kid, hk, hkk⟩ := Lists.exists_of_forall₂ h hk'
    exact hkk.calm rfl (hc.kid hk) c' hc'
  · subst hs
    rw [map_mk, map_mk]
    exact congrArg _ (Lists.map_eq_of_forall₂ h fun a b hab => (hab.held rfl).symm).symm

end Node

/-! ## Truths from those of branches -/

namespace Evaluated

variable {r : Registry} {P : Pools} {stage : Stage} {subst : Option Substitution}
  {i : Nat} {q : Quantifier} {f body left right : Formula} {c : Cell} {n : Node}

theorem staged {b : Bool × Node} (h : Evaluated r P stage subst f n b) :
    b.2.cell.staged = .ofBool b.1 := by
  have hs := h.found.root.1
  rw [Node.cell_map] at hs
  change b.2.cell.staged = .ofBool (f.holds r P (b.2.cell.env.substitute subst)) at hs
  rw [hs, h.truth, h.traced.cell_env]

theorem refl (h : f.Every (Formula.Found r P) n) :
    Evaluated r P stage none f n (f.holds r P n.cell.env, n) where
  truth := rfl
  traced := .refl stage n
  found := by rwa [Node.map_substitute_none]

theorem found_conclude {t : Bool} (truths : ExtTreeMap Nat Truth) {kids : List Node}
    (ht : t = f.holds r P (c.env.substitute subst))
    (hm : f.quantifier?.isSome = true → truths = Node.stagedTruths kids)
    (ha : ∀ i a, f = .application i a → ∃ b, r.eval a (c.env.substitute subst) none = .ok b) :
    f.Found r P ((Cell.write { c with branchTruths := truths } stage (.ofBool t)).substitute subst)
      (kids.map (Node.map (Cell.substitute subst))) := by
  have hk : Node.stagedTruths (kids.map (Node.map (Cell.substitute subst))) =
      Node.stagedTruths kids := by
    rw [Node.stagedTruths, List.map_map, Node.stagedTruths]
    refine congrArg (ExtTreeMap.ofList · compare) (List.map_congr_left fun kid _ => ?_)
    simp only [Function.comp_apply, Node.cell_map]
    rfl
  rw [ht]
  refine ⟨?_, ?_, ?_⟩
  · cases stage <;> rfl
  · cases stage with
    | commit => exact fun _ => rfl
    | hold =>
      intro h
      cases h
  · cases f with
    | quantified i q body =>
      change (Cell.write _ stage _).branchTruths = _
      rw [hk, ← hm rfl]
      cases stage <;> rfl
    | application i a =>
      change ∃ b, r.eval a (Cell.substitute subst (Cell.write _ stage _)).env none = .ok b
      cases stage <;> exact ha i a rfl
    | binary i op left right | negation i body => exact trivial

theorem quantified {kids : List Node} {bs : List (Bool × Node)}
    (hb : List.Forall₂ (Evaluated r P stage subst body) kids bs) {t : Bool}
    (ht : t = (Formula.quantified i q body).holds r P (c.env.substitute subst))
    {truths : ExtTreeMap Nat Truth} (hm : truths = Node.stagedTruths (bs.map Prod.snd)) :
    Evaluated r P stage subst (.quantified i q body) (.mk c kids)
      (Setting.conclude { c with branchTruths := truths } stage t (bs.map Prod.snd)) where
  truth := ht
  traced := .conclude (List.forall₂_map_right_iff.mpr (hb.imp fun _ _ h => h.traced)) c truths t
  found := by
    rw [Setting.conclude, Node.map_mk]
    refine ⟨found_conclude truths ht (fun _ => hm) nofun, fun kid' hk' => ?_⟩
    obtain ⟨kid, hk, rfl⟩ := List.mem_map.mp hk'
    obtain ⟨b, hbs, rfl⟩ := List.mem_map.mp hk
    obtain ⟨a, -, h⟩ := Lists.exists_of_forall₂ hb hbs
    exact h.found

theorem binary {op : Connective} {a b : Node} {x y : Bool × Node}
    (hx : Evaluated r P stage subst left a x) (hy : Evaluated r P stage subst right b y)
    (ha : a.cell.env.substitute subst = c.env.substitute subst)
    (hb : b.cell.env.substitute subst = c.env.substitute subst) :
    Evaluated r P stage subst (.binary i op left right) (.mk c [a, b])
      (Setting.conclude c stage (op.eval x.1 y.1) [x.2, y.2]) := by
  have ht : op.eval x.1 y.1 =
      (Formula.binary i op left right).holds r P (c.env.substitute subst) := by
    rw [hx.truth, hy.truth, ha, hb]
    rfl
  refine ⟨ht, .conclude (.cons hx.traced (.cons hy.traced .nil)) c c.branchTruths _, ?_⟩
  rw [Setting.conclude, Node.map_mk]
  exact ⟨found_conclude c.branchTruths ht nofun nofun, _, _, rfl, hx.found, hy.found⟩

theorem negation {a : Node} {x : Bool × Node} (hx : Evaluated r P stage subst body a x)
    (ha : a.cell.env.substitute subst = c.env.substitute subst) :
    Evaluated r P stage subst (.negation i body) (.mk c [a])
      (Setting.conclude c stage (!x.1) [x.2]) := by
  have ht : (!x.1) = (Formula.negation i body).holds r P (c.env.substitute subst) := by
    rw [hx.truth, ha]
    rfl
  refine ⟨ht, .conclude (.cons hx.traced .nil) c c.branchTruths _, ?_⟩
  rw [Setting.conclude, Node.map_mk]
  exact ⟨found_conclude c.branchTruths ht nofun nofun, _, rfl, hx.found⟩

theorem application {a : Application} {t : Bool}
    (ht : r.eval a (c.env.substitute subst) none = .ok t) :
    Evaluated r P stage subst (.application i a) (.mk c []) (Setting.conclude c stage t []) := by
  have ht' : t = (Formula.application i a).holds r P (c.env.substitute subst) :=
    (Formula.holds_application ht).symm
  refine ⟨ht', .conclude .nil c c.branchTruths _, ?_⟩
  rw [Setting.conclude, Node.map_mk]
  refine ⟨found_conclude c.branchTruths ht' nofun fun j a' e => ?_, rfl⟩
  cases e
  exact ⟨t, ht⟩

theorem entries_eq {kids : List Node} {bs : List (Bool × Node)}
    (hb : List.Forall₂ (Evaluated r P stage subst body) kids bs) :
    bs.map (fun b => (b.2.cell.bound.getD 0, Truth.ofBool b.1)) =
      (bs.map Prod.snd).map fun kid => (kid.cell.bound.getD 0, kid.cell.staged) := by
  rw [List.map_map]
  refine List.map_congr_left fun b hbs => ?_
  obtain ⟨a, -, h⟩ := Lists.exists_of_forall₂ hb hbs
  exact Prod.ext rfl h.staged.symm

theorem bounds_eq {kids : List Node} {bs : List (Bool × Node)}
    (hb : List.Forall₂ (Evaluated r P stage subst body) kids bs) :
    (bs.map fun b => b.2.cell.bound) = kids.map fun kid => kid.cell.bound :=
  (Lists.map_eq_of_forall₂ hb fun _ _ h => h.traced.cell_bound.symm).symm

end Evaluated

namespace Setting

theorem recordBranches_ok {bs : List (Bool × Node)} : ∀ {c : Cell},
    (∀ b ∈ bs, b.2.cell.bound.isSome = true) →
    recordBranches c bs = .ok { c with
      branchTruths := (c.branchTruths.insertMany <|
        bs.map fun b => (b.2.cell.bound.getD 0, Truth.ofBool b.1)) } := by
  induction bs with
  | nil =>
    intro c _
    rw [List.map_nil, ExtTreeMap.insertMany_nil]
    rfl
  | cons b bs ih =>
    intro c h
    rw [List.forall_mem_cons] at h
    obtain ⟨t, kid⟩ := b
    obtain ⟨id, hid⟩ := Option.isSome_iff_exists.mp h.1
    have hb : boundOf kid = .ok id := by
      rw [boundOf, hid]
    rw [recordBranches, hb, List.map_cons, ExtTreeMap.insertMany_cons, hid]
    exact ih h.2

variable {r : Registry} {P : Pools} {s : Setting} {stage : Stage} {subst : Option Substitution}

section Record

variable {body : Formula} {c : Cell} {kids : List Node} {bs : List (Bool × Node)}
  (hall : List.Forall₂ (Evaluated r P stage subst body) kids bs)
  (hb : ∀ kid ∈ kids, kid.cell.bound.isSome = true)

include hall hb

theorem isSome_of_evaluated : ∀ b ∈ bs, b.2.cell.bound.isSome = true := by
  intro b hbs
  obtain ⟨kid, hk, h⟩ := Lists.exists_of_forall₂ hall hbs
  rw [h.traced.cell_bound]
  exact hb kid hk

theorem recordBranches_all (hnd : (kids.map fun kid => kid.cell.bound.getD 0).Nodup)
    (hm : ∀ id, c.branchTruths.contains id → id ∈ kids.map fun kid => kid.cell.bound.getD 0) :
    recordBranches c bs =
      .ok { c with branchTruths := Node.stagedTruths (bs.map Prod.snd) } := by
  have hkeys : (bs.map fun b => (b.2.cell.bound.getD 0, Truth.ofBool b.1)).map Prod.fst =
      kids.map fun kid => kid.cell.bound.getD 0 := by
    have := congrArg (List.map (Option.getD · 0)) (Evaluated.bounds_eq hall)
    rw [List.map_map, List.map_map] at this
    rw [List.map_map]
    exact this
  rw [recordBranches_ok (isSome_of_evaluated hall hb), Map.insertMany_eq_ofList (hkeys ▸ hnd)
    (hkeys ▸ hm), Evaluated.entries_eq hall]
  rfl

theorem recordBranches_append {old : List Node} (ho : c.branchTruths = Node.stagedTruths old) :
    recordBranches c bs =
      .ok { c with branchTruths := Node.stagedTruths (old ++ bs.map Prod.snd) } := by
  rw [recordBranches_ok (isSome_of_evaluated hall hb), ho, Evaluated.entries_eq hall,
    Node.stagedTruths, ← Map.ofList_append, ← List.map_append]
  rfl

end Record

/-- The environment of a branch of a connective, where a substitution is read into it. -/
theorem substitute_env {kid : Node} {env : Env}
    (h : (kid.map (Cell.substitute subst)).cell.env = env) :
    kid.cell.env.substitute subst = env := by
  rwa [Node.cell_map] at h

section Branches

variable {i : Nat} {q : Quantifier} {body : Formula} {c : Cell} {kids : List Node}
  {K : Failure → Prop} {bs : List (Bool × Node)}
  (hP : P.Keyed)
  (hp : ((kids.map (Node.map (Cell.substitute subst))).map Node.place).Perm
    (q.places P (c.env.substitute subst)))
  (hm : (Formula.quantified i q body).Noted c kids)

include hP hp hm

theorem evaluated_branches (hall : List.Forall₂ (Evaluated r P stage subst body) kids bs) :
    recordBranches c bs = .ok { c with branchTruths := Node.stagedTruths (bs.map Prod.snd) } ∧
      Evaluated r P stage subst (.quantified i q body) (.mk c kids)
        (conclude { c with branchTruths := Node.stagedTruths (bs.map Prod.snd) } stage
          (q.kind.fold (bs.map Prod.fst)) (bs.map Prod.snd)) := by
  have hbounds : (kids.map fun kid => kid.cell.bound.getD 0) =
      (kids.map (Node.map (Cell.substitute subst))).map fun kid => kid.cell.bound.getD 0 := by
    rw [List.map_map]
    refine List.map_congr_left fun kid _ => ?_
    rw [Function.comp_apply, Node.cell_map]
    rfl
  have hsome : ∀ kid ∈ kids, kid.cell.bound.isSome = true := by
    intro kid hk
    obtain ⟨x, -, hx, -⟩ := Formula.exists_of_places hp (List.mem_map.mpr ⟨kid, hk, rfl⟩)
    rw [Node.cell_map] at hx
    rw [show kid.cell.bound = some x.id from hx, Option.isSome_some]
  have ht : q.kind.fold (bs.map Prod.fst) =
      (Formula.quantified i q body).holds r P (c.env.substitute subst) := by
    rw [Formula.holds_quantified hp, List.map_map]
    refine congrArg _ (Lists.map_eq_of_forall₂ hall fun kid b h => ?_).symm
    rw [h.truth, Function.comp_apply, Node.cell_map]
    rfl
  exact ⟨recordBranches_all hall hsome (hbounds ▸ Formula.nodup_bounds hP hp) hm,
    .quantified hall ht rfl⟩

/-- A quantifier whose branches are all looked at is decided if they are. -/
theorem decided_branches {x : Eval (List (Bool × Node))}
    (hx : x.Decided K
      (∀ kid ∈ kids, body.Evaluates r P (kid.cell.env.substitute subst))
      (List.Forall₂ (Evaluated r P stage subst body) kids)) :
    Eval.Decided K
      (do
        let branches ← x
        let c' ← Routine.ofExcept (recordBranches c branches)
        return conclude c' stage (q.kind.fold (branches.map (·.1))) (branches.map (·.2)))
      ((Formula.quantified i q body).Evaluates r P (c.env.substitute subst))
      (Evaluated r P stage subst (.quantified i q body) (.mk c kids)) := by
  have hiff : (Formula.quantified i q body).Evaluates r P (c.env.substitute subst) ↔
      ∀ kid ∈ kids, body.Evaluates r P (kid.cell.env.substitute subst) := by
    simp only [Formula.evaluates_quantified hp, List.forall_mem_map, Node.cell_map]
    rfl
  refine Eval.Decided.congr (hx.andThen fun bs hall => ?_) hiff
  obtain ⟨hrec, hev⟩ := evaluated_branches hP hp hm hall
  exact ⟨_, (Eval.yields_ofExcept hrec).bind (Eval.yields_pure _), hev⟩

end Branches

/-- A quantifier whose branches are all looked at in their own environments. -/
theorem decided_branches_none {i : Nat} {q : Quantifier} {body : Formula} {c : Cell}
    {kids : List Node} {K : Failure → Prop} (hP : P.Keyed)
    (hp : (kids.map Node.place).Perm (q.places P c.env))
    (hm : (Formula.quantified i q body).Noted c kids)
    {x : Eval (List (Bool × Node))}
    (hx : x.Decided K (∀ kid ∈ kids, body.Evaluates r P kid.cell.env)
      (List.Forall₂ (Evaluated r P stage none body) kids)) :
    Eval.Decided K
      (do
        let branches ← x
        let c' ← Routine.ofExcept (recordBranches c branches)
        return conclude c' stage (q.kind.fold (branches.map (·.1))) (branches.map (·.2)))
      ((Formula.quantified i q body).Evaluates r P c.env)
      (Evaluated r P stage none (.quantified i q body) (.mk c kids)) :=
  decided_branches hP (by rwa [Node.kids_substitute_none]) hm hx

section Operands

variable {K : Failure → Prop} {i : Nat} {op : Connective} {left right body : Formula} {c : Cell} {a b : Node}
  {x y : Eval (Bool × Node)}

theorem decided_connect (hea : a.cell.env.substitute subst = c.env.substitute subst)
    (heb : b.cell.env.substitute subst = c.env.substitute subst)
    (hx : x.Decided K (left.Evaluates r P (a.cell.env.substitute subst)) (Evaluated r P stage subst left a))
    (hy : y.Decided K (right.Evaluates r P (b.cell.env.substitute subst)) (Evaluated r P stage subst right b)) :
    Eval.Decided K
      (do let (ta, a) ← x; let (tb, b) ← y; return conclude c stage (op.eval ta tb) [a, b])
      ((Formula.binary i op left right).Evaluates r P (c.env.substitute subst))
      (Evaluated r P stage subst (.binary i op left right) (.mk c [a, b])) := by
  rw [hea] at hx
  rw [heb] at hy
  exact hx.bind fun x hxa => hy.andThen fun y hyb => ⟨_, Eval.yields_pure _, .binary hxa hyb hea heb⟩

theorem decided_negate (hea : a.cell.env.substitute subst = c.env.substitute subst)
    (hx : x.Decided K (body.Evaluates r P (a.cell.env.substitute subst)) (Evaluated r P stage subst body a)) :
    Eval.Decided K (do let (ta, a) ← x; return conclude c stage (!ta) [a])
      ((Formula.negation i body).Evaluates r P (c.env.substitute subst))
      (Evaluated r P stage subst (.negation i body) (.mk c [a])) := by
  rw [hea] at hx
  exact hx.andThen fun x hxa => ⟨_, Eval.yields_pure _, .negation hxa hea⟩

end Operands

/-! ## Instances -/

section Instance

variable {K : Failure → Prop} {f : Formula}

section Decided

variable (hK : Failure.CrashClosed K) (hP : s.facts.pools.Keyed)

include hK hP

/-- **The truth of an instance** and of all nodes below it, where a substitution is read into the
environments: it is found if the formula evaluates, and evaluation fails if it does not. -/
theorem evaluate_decided : ∀ {n : Node},
    f.Every (Formula.Placed s.facts.pools) (n.map (Cell.substitute subst)) →
    f.Every Formula.Noted n →
    f.Answers s.registry K s.facts.pools (n.cell.env.substitute subst) →
    (s.evaluate stage subst f n).Decided K
      (f.Evaluates s.registry s.facts.pools (n.cell.env.substitute subst))
      (Evaluated s.registry s.facts.pools stage subst f n) := by
  induction f with
  | quantified i q body ih =>
    rintro ⟨c, kids⟩ hp hm ha
    rw [Node.map_mk] at hp
    obtain ⟨⟨-, hpl⟩, hpk⟩ := hp
    change ((kids.map (Node.map (Cell.substitute subst))).map Node.place).Perm
      (q.places s.facts.pools (c.env.substitute subst)) at hpl
    have hkid : ∀ kid ∈ kids, (s.evaluate stage subst body kid).Decided K
        (body.Evaluates s.registry s.facts.pools (kid.cell.env.substitute subst))
        (Evaluated s.registry s.facts.pools stage subst body kid) := by
      intro kid hk
      have hk' : kid.map (Cell.substitute subst) ∈ kids.map (Node.map (Cell.substitute subst)) :=
        List.mem_map.mpr ⟨kid, hk, rfl⟩
      have hak := ha.kid hpl hk'
      rw [Node.cell_map] at hak
      exact ih (hpk _ hk') (hm.2 kid hk) hak
    exact decided_branches hP hpl hm.1 (s.decided_forBranches hK i hkid)
  | binary i op left right ihl ihr =>
    rintro ⟨c, kids⟩ hp hm ha
    obtain ⟨-, a, b, rfl, hma, hmb⟩ := hm
    rw [Node.map_mk] at hp
    obtain ⟨hpl, hpa, hpb⟩ := Formula.every_binary.mp hp
    have hea : a.cell.env.substitute subst = c.env.substitute subst := substitute_env hpl.left_env
    have heb : b.cell.env.substitute subst = c.env.substitute subst := substitute_env hpl.right_env
    exact decided_connect hea heb (ihl hpa hma (hea ▸ ha.1)) (ihr hpb hmb (heb ▸ ha.2))
  | negation i body ih =>
    rintro ⟨c, kids⟩ hp hm ha
    obtain ⟨-, a, rfl, hma⟩ := hm
    rw [Node.map_mk] at hp
    obtain ⟨hpl, hpa⟩ := Formula.every_negation.mp hp
    have hea : a.cell.env.substitute subst = c.env.substitute subst := substitute_env hpl.operand_env
    have ha' : body.Answers s.registry K s.facts.pools (c.env.substitute subst) := ha
    exact decided_negate hea (ih hpa hma (hea ▸ ha'))
  | application i a =>
    rintro ⟨c, kids⟩ hp hm ha
    obtain ⟨-, rfl⟩ := hm
    change (s.evaluate stage subst (.application i a) (.mk c [])).Decided K
      (∃ b, s.registry.eval a (c.env.substitute subst) none = .ok b) _
    have ha' : ∀ e, s.registry.eval a (c.env.substitute subst) none = .error e → K e := ha
    rw [Registry.eval_substitute] at ha' ⊢
    refine (Eval.decided_ofExcept ha').andThen fun t ht => ⟨_, Eval.yields_pure _, .application ?_⟩
    rw [Registry.eval_substitute]
    exact ht

theorem evaluate_decided_none {n : Node} (hp : f.Every (Formula.Placed s.facts.pools) n)
    (hm : f.Every Formula.Noted n) (ha : f.Answers s.registry K s.facts.pools n.cell.env) :
    (s.evaluate stage none f n).Decided K (f.Evaluates s.registry s.facts.pools n.cell.env)
      (Evaluated s.registry s.facts.pools stage none f n) :=
  evaluate_decided hK hP (by rwa [Node.map_substitute_none]) hm ha

end Decided

/-- **The truth of an instance** of a formula that evaluates. -/
theorem evaluate_yields (hP : s.facts.pools.Keyed) {n : Node}
    (hp : f.Every (Formula.Placed s.facts.pools) (n.map (Cell.substitute subst)))
    (hm : f.Every Formula.Noted n)
    (he : f.Evaluates s.registry s.facts.pools (n.cell.env.substitute subst)) :
    ∃ b, (s.evaluate stage subst f n).Yields b ∧
      Evaluated s.registry s.facts.pools stage subst f n b :=
  (evaluate_decided (K := fun _ => True) (fun _ _ => trivial) hP hp hm
    (Formula.answers_true ..)).yields he

theorem evaluate_yields_none (hP : s.facts.pools.Keyed) {n : Node}
    (hp : f.Every (Formula.Placed s.facts.pools) n) (hm : f.Every Formula.Noted n)
    (he : f.Evaluates s.registry s.facts.pools n.cell.env) :
    ∃ b, (s.evaluate stage none f n).Yields b ∧
      Evaluated s.registry s.facts.pools stage none f n b :=
  evaluate_yields hP (by rwa [Node.map_substitute_none]) hm he

end Instance

end Setting

end RuleMonitor
