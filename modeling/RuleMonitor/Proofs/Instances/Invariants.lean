import RuleMonitor.Proofs.Instances.Nodes
import RuleMonitor.Proofs.Meaning
import RuleMonitor.Semantics.Instance

/-!
# Invariants of instances

What is true of an instance between cycles is said node by node, of a cell with its branches.

* `Formula.Placed`: the branches are those that the formula has over the pools.
* `Formula.Found`: the truths are right, though they may wait to be committed; `Node.Calm`: none waits.
* `Formula.Cached`: links that are trusted are right.
* **`Formula.instance_of_placed`**, **`Formula.settled_of_found`**: they make an instance that is
  settled.
-/

namespace RuleMonitor

open Std (ExtTreeMap ExtTreeSet)

/-- What a node is bound to, and its environment. -/
def Node.place (n : Node) : Option Nat × Env :=
  (n.cell.bound, n.cell.env)

/-- What the branches of a quantifier are bound to, and their environments. -/
def Quantifier.places (q : Quantifier) (P : Pools) (env : Env) : List (Option Nat × Env) :=
  (q.range P env).map fun c => (some c.id, q.bind env c)

/-- The truths of branches by their contexts. -/
def Node.stagedTruths (kids : List Node) : ExtTreeMap Nat Truth :=
  .ofList (kids.map fun kid => (kid.cell.bound.getD 0, kid.cell.staged))

namespace Formula

/-- The branches of the node are those that the formula has over the pools. -/
def Placed (P : Pools) (f : Formula) (c : Cell) (kids : List Node) : Prop :=
  c.formula = f.index ∧
    match f with
    | quantified _ q _ => (kids.map Node.place).Perm (q.places P c.env)
    | _ => ∀ kid ∈ kids, kid.place = (none, c.env)

/-- Truths are noted for branches that are there. -/
def Noted (f : Formula) (c : Cell) (kids : List Node) : Prop :=
  match f with
  | quantified .. =>
    ∀ id, c.branchTruths.contains id → id ∈ kids.map fun kid => kid.cell.bound.getD 0
  | _ => True

/-- The truth found for the node is that of the formula, those of its branches are noted, and no
predicate failed. -/
def Found (r : Registry) (P : Pools) (f : Formula) (c : Cell) (kids : List Node) : Prop :=
  c.staged = .ofBool (f.holds r P c.env) ∧ (c.pending = false → c.truth = c.staged) ∧
    match f with
    | quantified .. => c.branchTruths = Node.stagedTruths kids
    | application _ a => ∃ b, r.eval a c.env none = .ok b
    | _ => True

/-- The links of the node, if they are trusted, are those of the formula. -/
def Cached (r : Registry) (P : Pools) (trusted : Nat → Prop) (f : Formula) (c : Cell)
    (_ : List Node) : Prop :=
  trusted c.index → ∀ L ∈ c.links, L = f.links r P c.env

end Formula

/-- No truth waits to be committed. -/
def Node.Calm (n : Node) : Prop :=
  ∀ c ∈ n.cells, c.pending = false

theorem Node.Calm.kid {n kid : Node} (h : n.Calm) (hk : kid ∈ n.kids) : kid.Calm :=
  fun c hc => h c (Node.mem_cells_of_mem_kids hk hc)

theorem Node.mem_of_contains_stagedTruths {kids : List Node} {id : Nat}
    (h : (stagedTruths kids).contains id = true) :
    id ∈ kids.map fun kid => kid.cell.bound.getD 0 := by
  rw [stagedTruths, ExtTreeMap.contains_ofList, List.contains_iff_mem, List.map_map] at h
  exact h

section StagedTruths

variable {l r : List Node} {kid : Node}
  (hd : ((l ++ kid :: r).map fun k => k.cell.bound.getD 0).Nodup)

include hd

theorem Node.nodup_keys : (((l.map fun k => (k.cell.bound.getD 0, k.cell.staged)) ++
    (kid.cell.bound.getD 0, kid.cell.staged) ::
      r.map fun k => (k.cell.bound.getD 0, k.cell.staged)).map Prod.fst).Nodup := by
  rw [← List.map_cons (f := fun k : Node => (k.cell.bound.getD 0, k.cell.staged)),
    ← List.map_append, List.map_map]
  exact hd

theorem Node.stagedTruths_erase :
    (stagedTruths (l ++ kid :: r)).erase (kid.cell.bound.getD 0) = stagedTruths (l ++ r) := by
  unfold stagedTruths
  rw [List.map_append, List.map_append, List.map_cons]
  exact Map.ofList_erase (nodup_keys hd)

theorem Node.stagedTruths_insert :
    (stagedTruths (l ++ r)).insert (kid.cell.bound.getD 0) kid.cell.staged =
      stagedTruths (l ++ kid :: r) := by
  unfold stagedTruths
  rw [List.map_append, List.map_append, List.map_cons]
  exact Map.ofList_insert (nodup_keys hd)

end StagedTruths

namespace Cell

/-- The cell without what evaluation writes. -/
def base (c : Cell) : Cell :=
  { c with truth := .unknown, staged := .unknown, pending := false, branchTruths := ∅ }

/-- The cell without its links. -/
def unlinked (c : Cell) : Cell :=
  { c with links := none }

@[simp] theorem base_index (c : Cell) : c.base.index = c.index := rfl

@[simp] theorem base_formula (c : Cell) : c.base.formula = c.formula := rfl

@[simp] theorem base_env (c : Cell) : c.base.env = c.env := rfl

@[simp] theorem base_bound (c : Cell) : c.base.bound = c.bound := rfl

@[simp] theorem base_links (c : Cell) : c.base.links = c.links := rfl

@[simp] theorem base_fresh (c : Cell) : c.base.fresh = c.fresh := rfl

@[simp] theorem base_pruned (c : Cell) : c.base.pruned = c.pruned := rfl

@[simp] theorem unlinked_branchTruths (c : Cell) :
    c.unlinked.branchTruths = c.branchTruths := rfl

/-- The cell as it was when it took its slot. -/
def blank (c : Cell) : Cell :=
  { index := c.index, formula := c.formula, env := c.env, bound := c.bound }

theorem place_eq_of_base {a b : Node} (h : a.cell.base = b.cell.base) : a.place = b.place := by
  refine Prod.ext ?_ ?_
  · simpa [Node.place] using congrArg bound h
  · simpa [Node.place] using congrArg env h

end Cell

/-- Nothing was found yet about the node and the nodes below it. -/
def Node.Blank (n : Node) : Prop :=
  ∀ c ∈ n.cells, c.blank = c

/-! ## The branches of a quantifier -/

namespace Formula

variable {r : Registry} {P : Pools} {q : Quantifier} {body : Formula} {i : Nat} {env : Env}
  {kids : List Node}

theorem exists_of_places (h : (kids.map Node.place).Perm (q.places P env)) {kid : Node}
    (hk : kid ∈ kids) : ∃ x ∈ q.range P env, kid.cell.bound = some x.id ∧
      kid.cell.env = q.bind env x := by
  have hp : kid.place ∈ q.places P env := h.mem_iff.mp (List.mem_map.mpr ⟨kid, hk, rfl⟩)
  obtain ⟨x, hx, e⟩ := List.mem_map.mp hp
  exact ⟨x, hx, (congrArg Prod.fst e).symm, (congrArg Prod.snd e).symm⟩

theorem exists_kid_of_places (h : (kids.map Node.place).Perm (q.places P env)) {x : Context}
    (hx : x ∈ q.range P env) : ∃ kid ∈ kids, kid.cell.bound = some x.id ∧
      kid.cell.env = q.bind env x := by
  have hp : (some x.id, q.bind env x) ∈ kids.map Node.place :=
    h.mem_iff.mpr (List.mem_map.mpr ⟨x, hx, rfl⟩)
  obtain ⟨kid, hk, e⟩ := List.mem_map.mp hp
  exact ⟨kid, hk, congrArg Prod.fst e, congrArg Prod.snd e⟩

theorem bounds_perm (h : (kids.map Node.place).Perm (q.places P env)) :
    (kids.map fun kid => kid.cell.bound.getD 0).Perm ((q.range P env).map (·.id)) := by
  have := h.map fun p => p.1.getD 0
  rwa [Quantifier.places, List.map_map, List.map_map] at this

theorem nodup_bounds (hP : P.Keyed) (h : (kids.map Node.place).Perm (q.places P env)) :
    (kids.map fun kid => kid.cell.bound.getD 0).Nodup :=
  (bounds_perm h).nodup_iff.mpr (Pools.nodup_range hP q env)

theorem Evaluates.kid (h : (quantified i q body).Evaluates r P env)
    (hp : (kids.map Node.place).Perm (q.places P env)) {kid : Node} (hk : kid ∈ kids) :
    body.Evaluates r P kid.cell.env := by
  obtain ⟨x, hx, -, he⟩ := exists_of_places hp hk
  rw [he]
  exact h x hx

theorem evaluates_quantified (h : (kids.map Node.place).Perm (q.places P env)) :
    (quantified i q body).Evaluates r P env ↔ ∀ kid ∈ kids, body.Evaluates r P kid.cell.env := by
  refine ⟨fun he kid hk => he.kid h hk, fun he x hx => ?_⟩
  obtain ⟨kid, hk, -, henv⟩ := exists_kid_of_places h hx
  rw [← henv]
  exact he kid hk

theorem holds_quantified (h : (kids.map Node.place).Perm (q.places P env)) :
    (quantified i q body).holds r P env =
      q.kind.fold (kids.map fun kid => body.holds r P kid.cell.env) := by
  have := h.map fun p => body.holds r P p.2
  rw [Quantifier.places, List.map_map, List.map_map] at this
  exact q.kind.fold_perm this.symm

theorem mem_links_of_places (h : (kids.map Node.place).Perm (q.places P env)) {l : Link} :
    l ∈ (quantified i q body).links r P env ↔
      ∃ kid ∈ kids, body.holds r P kid.cell.env = q.kind.witnessTruth ∧
        l ∈ (body.links r P kid.cell.env).withBinding q.kind.linkKind q.var
          (kid.cell.bound.getD 0) := by
  rw [mem_links_quantified]
  constructor
  · rintro ⟨x, hx, ht, hl⟩
    obtain ⟨kid, hk, hb, he⟩ := exists_kid_of_places h hx
    exact ⟨kid, hk, by rwa [he], by rwa [he, hb]⟩
  · rintro ⟨kid, hk, ht, hl⟩
    obtain ⟨x, hx, hb, he⟩ := exists_of_places h hk
    rw [hb] at hl
    exact ⟨x, hx, by rwa [← he], by rwa [← he]⟩

/-! ## The branches of a connective -/

section Connective

variable {op : Connective} {left right : Formula} {c : Cell} {a b : Node}

theorem Placed.left_env (h : (binary i op left right).Placed P c [a, b]) : a.cell.env = c.env :=
  congrArg Prod.snd (h.2 a (by simp))

theorem Placed.right_env (h : (binary i op left right).Placed P c [a, b]) : b.cell.env = c.env :=
  congrArg Prod.snd (h.2 b (by simp))

theorem Placed.operand_env (h : (negation i body).Placed P c [a]) : a.cell.env = c.env :=
  congrArg Prod.snd (h.2 a (by simp))

end Connective

/-! ## What the properties do not read -/

section Transfer

variable {f : Formula} {n n' : Node} {trusted : Nat → Prop}

theorem Every.placed_of_map {g : Cell → Cell}
    (hg : ∀ c, (g c).formula = c.formula ∧ (g c).env = c.env ∧ (g c).bound = c.bound)
    (e : n.map g = n'.map g) (h : f.Every (Placed P) n) : f.Every (Placed P) n' := by
  refine Every.of_map ?_ e h
  intro f c c' kids kids' hc hk hp
  have hf : c.formula = c'.formula := by
    rw [← (hg c).1, ← (hg c').1, hc]
  have he : c.env = c'.env := by
    rw [← (hg c).2.1, ← (hg c').2.1, hc]
  have hplace : ∀ kid : Node, ((g kid.cell).bound, (g kid.cell).env) = kid.place := fun kid =>
    Prod.ext (hg kid.cell).2.2 (hg kid.cell).2.1
  have hkp : kids.map Node.place = kids'.map Node.place := by
    have := congrArg (List.map fun b : Cell => (b.bound, b.env)) hk
    rw [List.map_map, List.map_map] at this
    rwa [List.map_congr_left fun kid _ => (hplace kid).symm,
      List.map_congr_left (l := kids') fun kid _ => (hplace kid).symm]
  refine ⟨hf ▸ hp.1, ?_⟩
  cases f with
  | quantified i q body => exact hkp ▸ he ▸ hp.2
  | binary i op left right | negation i body | application i a =>
    intro kid' hk'
    have hm : kid'.place ∈ kids.map Node.place := by
      rw [hkp]
      exact List.mem_map.mpr ⟨kid', hk', rfl⟩
    obtain ⟨kid, hk, e⟩ := List.mem_map.mp hm
    rw [← e, hp.2 kid hk, he]

theorem Every.placed_of_base (e : n.map Cell.base = n'.map Cell.base) (h : f.Every (Placed P) n) :
    f.Every (Placed P) n' :=
  h.placed_of_map (g := Cell.base) (fun _ => ⟨rfl, rfl, rfl⟩) e

theorem Every.placed_of_unlinked (e : n.map Cell.unlinked = n'.map Cell.unlinked)
    (h : f.Every (Placed P) n) : f.Every (Placed P) n' :=
  h.placed_of_map (g := Cell.unlinked) (fun _ => ⟨rfl, rfl, rfl⟩) e

theorem Every.cached_of_base (e : n.map Cell.base = n'.map Cell.base)
    (h : f.Every (Cached r P trusted) n) : f.Every (Cached r P trusted) n' := by
  refine Every.of_map ?_ e h
  intro f c c' kids kids' hc _ hp ht L hL
  have hi : c.index = c'.index := by simpa using congrArg Cell.index hc
  have hl : c.links = c'.links := by simpa using congrArg Cell.links hc
  have he : c.env = c'.env := by simpa using congrArg Cell.env hc
  rw [← he]
  exact hp (hi ▸ ht) L (hl ▸ hL)

theorem Every.found_of_unlinked (e : n.map Cell.unlinked = n'.map Cell.unlinked)
    (h : f.Every (Found r P) n) : f.Every (Found r P) n' := by
  refine Every.of_map ?_ e h
  intro f c c' kids kids' hc hk hp
  have hu : c.unlinked.staged = .ofBool (f.holds r P c.unlinked.env) ∧
      (c.unlinked.pending = false → c.unlinked.truth = c.unlinked.staged) := ⟨hp.1, hp.2.1⟩
  rw [hc] at hu
  refine ⟨hu.1, hu.2, ?_⟩
  cases f with
  | quantified i q body =>
    have hks : kids.map (fun kid => (kid.cell.bound.getD 0, kid.cell.staged)) =
        kids'.map fun kid => (kid.cell.bound.getD 0, kid.cell.staged) := by
      have := congrArg (List.map fun b : Cell => (b.bound.getD 0, b.staged)) hk
      rwa [List.map_map, List.map_map] at this
    have hb : c.branchTruths = c'.branchTruths := by simpa using congrArg Cell.branchTruths hc
    have h₂ : c.branchTruths = Node.stagedTruths kids := hp.2.2
    change c'.branchTruths = _
    rw [← hb, h₂, Node.stagedTruths, Node.stagedTruths, hks]
  | application i a =>
    have he : c.env = c'.env := (congrArg Cell.env hc :)
    exact he ▸ hp.2.2
  | binary i op left right | negation i body => exact trivial

/-! What the properties read of the pools are those of the patterns quantified over. -/

variable {Q : Pools}

theorem Placed.congr {c : Cell} (h : ∀ p ∈ f.patterns, P.pool p = Q.pool p)
    (hp : f.Placed P c kids) : f.Placed Q c kids := by
  refine ⟨hp.1, ?_⟩
  cases f with
  | quantified i q body =>
    have hpl : (kids.map Node.place).Perm (q.places P c.env) := hp.2
    rwa [Quantifier.places, Pools.range_congr (h _ List.mem_cons_self)] at hpl
  | binary i op left right | negation i body | application i a => exact hp.2

theorem Every.placed_congr (h : ∀ p ∈ f.patterns, P.pool p = Q.pool p)
    (hp : f.Every (Placed P) n) : f.Every (Placed Q) n :=
  hp.imp fun _ hg _ _ hm => hm.congr fun p hp => h p (patterns_subset hg hp)

theorem Every.found_congr (h : ∀ p ∈ f.patterns, P.pool p = Q.pool p)
    (hf : f.Every (Found r P) n) : f.Every (Found r Q) n := by
  refine hf.imp fun g hg m _ hm => ⟨?_, hm.2⟩
  rw [hm.1, holds_congr m.cell.env fun p hp => h p (patterns_subset hg hp)]

theorem Every.cached_congr (h : ∀ p ∈ f.patterns, P.pool p = Q.pool p)
    (hc : f.Every (Cached r P trusted) n) : f.Every (Cached r Q trusted) n := by
  refine hc.imp fun g hg m _ hm ht L hL => ?_
  rw [hm ht L hL, links_congr m.cell.env fun p hp => h p (patterns_subset hg hp)]

end Transfer

/-! ## Instances that are settled -/

section Settled

variable {f : Formula} {n : Node}

/-- **An instance** has the branches of the formula at every node. -/
theorem instance_of_placed {bound : Option Nat} : f.Every (Placed P) n → n.cell.env = env →
    n.cell.bound = bound → f.Instance P env bound n := by
  induction f generalizing n env bound with
  | quantified i q body ih =>
    obtain ⟨c, kids⟩ := n
    rintro h rfl rfl
    obtain ⟨hf, hp⟩ := h.1
    refine ⟨⟨hf, rfl, rfl⟩, ?_⟩
    have hg : List.Forall₂ (fun p (x : Context) => p = (some x.id, q.bind c.env x))
        (q.places P c.env) (q.range P c.env) := by
      rw [Quantifier.places, List.forall₂_map_left_iff]
      exact List.forall₂_same.mpr fun x _ => rfl
    obtain ⟨order, hko, hperm⟩ := List.perm_comp_forall₂ hp hg
    rw [List.forall₂_map_left_iff] at hko
    refine ⟨order, hperm, hko.length_eq.symm, fun p hm => ?_⟩
    have he : p.2.place = (some p.1.id, q.bind c.env p.1) :=
      (List.forall₂_iff_zip.mp hko.flip).2 hm
    exact ih (h.2 p.2 (List.of_mem_zip hm).2) (congrArg Prod.snd he) (congrArg Prod.fst he)
  | binary i op left right ihl ihr =>
    obtain ⟨c, kids⟩ := n
    rintro ⟨⟨hf, hp⟩, a, b, rfl, ha, hb⟩ rfl rfl
    have hpa := hp a (by simp)
    have hpb := hp b (by simp)
    exact ⟨⟨hf, rfl, rfl⟩, a, b, rfl, ihl ha (congrArg Prod.snd hpa) (congrArg Prod.fst hpa),
      ihr hb (congrArg Prod.snd hpb) (congrArg Prod.fst hpb)⟩
  | negation i body ih =>
    obtain ⟨c, kids⟩ := n
    rintro ⟨⟨hf, hp⟩, a, rfl, ha⟩ rfl rfl
    have hpa := hp a (by simp)
    exact ⟨⟨hf, rfl, rfl⟩, a, rfl, ih ha (congrArg Prod.snd hpa) (congrArg Prod.fst hpa)⟩
  | application i a =>
    obtain ⟨c, kids⟩ := n
    rintro ⟨⟨hf, -⟩, hk⟩ rfl rfl
    exact ⟨⟨hf, rfl, rfl⟩, hk⟩

theorem Found.agrees {f : Formula} {c : Cell} (h : f.Found r P c kids) (hc : c.pending = false)
    (he : f.Evaluates r P c.env) : c.Agrees r P f :=
  ⟨f.holds r P c.env, truth_eq he, (h.2.1 hc).trans h.1, h.1⟩

/-- **An instance is settled** if all its truths were found and none waits. -/
theorem settled_of_found : f.Every (Placed P) n → f.Every (Found r P) n → n.Calm →
    f.Evaluates r P n.cell.env → f.Settled r P n := by
  induction f generalizing n with
  | quantified i q body ih =>
    obtain ⟨c, kids⟩ := n
    intro hp hf hn he
    refine ⟨hf.1.agrees (hn c (Node.cell_mem_cells _)) he, fun kid hk => ?_, ?_⟩
    · exact ih (hp.2 kid hk) (hf.2 kid hk) (hn.kid hk) (he.kid hp.1.2 hk)
    · refine hf.1.2.2.trans ?_
      rw [Node.stagedTruths]
      refine congrArg (ExtTreeMap.ofList · compare) (List.map_congr_left fun kid hk => ?_)
      rw [(hf.2 kid hk).root.2.1 (hn.kid hk _ (Node.cell_mem_cells _))]
  | binary i op left right ihl ihr =>
    obtain ⟨c, kids⟩ := n
    rintro ⟨hp, a, b, rfl, hpa, hpb⟩ hf hn he
    obtain ⟨hf, hfa, hfb⟩ := every_binary.mp hf
    exact ⟨hf.agrees (hn c (Node.cell_mem_cells _)) he, a, b, rfl,
      ihl hpa hfa (hn.kid (by simp)) (hp.left_env ▸ he.1),
      ihr hpb hfb (hn.kid (by simp)) (hp.right_env ▸ he.2)⟩
  | negation i body ih =>
    obtain ⟨c, kids⟩ := n
    rintro ⟨hp, a, rfl, hpa⟩ hf hn he
    obtain ⟨hf, hfa⟩ := every_negation.mp hf
    have hea : body.Evaluates r P c.env := he
    exact ⟨hf.agrees (hn c (Node.cell_mem_cells _)) he, a, rfl,
      ih hpa hfa (hn.kid (by simp)) (hp.operand_env ▸ hea)⟩
  | application i a =>
    obtain ⟨c, kids⟩ := n
    intro hp hf hn he
    exact hf.1.agrees (hn c (Node.cell_mem_cells _)) he

end Settled

end Formula

end RuleMonitor
