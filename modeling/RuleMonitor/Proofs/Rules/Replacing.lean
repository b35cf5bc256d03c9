import RuleMonitor.Proofs.Evaluation.Probing
import RuleMonitor.Proofs.Rules.Cycles

/-!
# Replacements without a cycle

A replacement that fits rebinds all branches bound to one context, renames the context in the links, and
exchanges it in the facts. The rule is sound afterwards, for the pools after the exchange.

* `Rule.rebindAll_turns`: all branches rebound.
* `Tree.Right.replaced`: the instantiation is right for the pools after the exchange.
* `Tree.truths`, **`Tree.truths_replaced`**: the truths of all nodes.
* **`Rule.swapBranches_turns`**: a replacement keeps a rule sound.
-/

namespace RuleMonitor

open Std (ExtTreeMap ExtTreeSet)

open Formula (inSlots boundTo)

namespace Rule

variable {engine : Engine} {r : Rule} {P : Pools} {f : Formula} {n : Node} {p : String} {old : Nat}

/-- **Branches are rebound** one after the other. -/
theorem rebindAll_turns (v : String) (new : Context) (hP : P.Keyed)
    (hp : f.Every (Formula.Placed P) n) (hn : n.indices.Nodup) :
    ∀ {branches : List Nat} (done : List Nat) {r : Rule}, (done ++ branches).Nodup →
    (∀ k ∈ f.branchesOver p n, inSlots done k = true → boundTo old k = true) →
    (∀ b ∈ branches, ∃ k ∈ f.branchesOver p n, boundTo old k = true ∧ k.index = b) →
    r.tree.root = some (f.replaced p v old new (inSlots done) n) →
    Cycle.Turns (branches.forM fun b => Cycle.onTree (Tree.rebind b v new)) r ⟨⟩
      { r with tree := { r.tree with
        root := some (f.replaced p v old new (inSlots (done ++ branches)) n) } } := by
  intro branches
  induction branches with
  | nil =>
    intro done r _ _ _ hr
    rw [List.append_nil, ← hr]
    exact Cycle.turns_pure _ r
  | cons b branches ih =>
    intro done r hnd hdone hbranches hr
    rw [List.forall_mem_cons] at hbranches
    obtain ⟨⟨kid, hk, hbound, rfl⟩, hrest⟩ := hbranches
    have hperm : (done ++ kid.index :: branches).Perm (kid.index :: done ++ branches) :=
      List.perm_middle
    have hslots : inSlots (done ++ kid.index :: branches) =
        inSlots (kid.index :: done ++ branches) :=
      funext fun k => by rw [inSlots, inSlots, decide_eq_decide, hperm.mem_iff]
    have hnew : inSlots done kid = false := decide_eq_false fun h =>
      (List.nodup_append.mp hnd).2.2 _ h _ List.mem_cons_self rfl
    have hdone' : ∀ k ∈ f.branchesOver p n, inSlots (kid.index :: done) k = true →
        boundTo old k = true := by
      intro k hkm hs
      rcases List.mem_cons.mp (of_decide_eq_true hs) with e | h
      · rwa [List.inj_on_of_nodup_map (hn.sublist (Formula.branchesOver_sublist f n)) hkm hk e]
      · exact hdone k hkm (decide_eq_true h)
    have hstep := Formula.rebinds_replaced v new hbound hnew hP hp hn hk hdone
    rw [hslots]
    exact (Cycle.turns_onTree (hstep.rebind_ok hr)).bind
      (ih _ (hperm.nodup_iff.mp hnd) hdone' hrest rfl)

end Rule

namespace Tree.Right

variable {engine : Engine} {P : Pools} {f : Formula} {t : Tree} {n : Node} {p v : String}
  {old new : Context}

/-- The cells with a context renamed in their links. -/
def renamed (v : String) (a b : Nat) (c : Cell) : Cell :=
  { c with links := c.links.map (·.rename v a b) }

/-- **The instantiation after an exchange**, with the context renamed in the links. -/
theorem replaced (h : t.Right engine P f n) (hx : P.Exchangeable p old new) (hP : P.Keyed)
    (hnd : f.patterns.Nodup) (hb : f.Binds p v)
    (hq : f.Every (Formula.Probed engine.registry P p v old new) n) {n' : Node}
    (hn' : n' = (f.replaced p v old.id new (boundTo old.id) n).map (renamed v old.id new.id)) :
    Right engine (P.exchange p old.id new) f { t with root := some n' } n' := by
  have hmeaning := Formula.meaning_exchange hx hP hnd hb
    (h.placed.indifferent hx.live hP hnd hb hq)
  have hex := Formula.exchanged_replaced hx hP hnd hb h.placed h.found h.cached hq
  obtain ⟨truths, hcell⟩ := Formula.replaced_cell f p v old.id new (boundTo old.id) n
  have hplace : n'.place = n.place := by
    rw [hn', Node.place, Node.cell_map, hcell]
    rfl
  have hunlinked : (f.replaced p v old.id new (boundTo old.id) n).map Cell.unlinked =
      n'.map Cell.unlinked := by
    rw [hn', Node.map_map]
    rfl
  have henv := h.env
  have hindices : n'.indices = n.indices := by
    rw [hn', ← Formula.indices_replaced f p v old.id new (boundTo old.id) n]
    exact Node.indices_eq_of_map (g := Cell.unlinked) (fun _ => rfl) (hn' ▸ hunlinked.symm)
  refine ⟨rfl, hplace.trans h.place, ?_, ?_, ?_, fun hm => ?_, ?_⟩
  · exact (hex.imp fun _ _ _ _ h => h.placed).placed_of_unlinked hunlinked
  · exact (hex.imp fun _ _ _ _ h => h.found).found_of_unlinked hunlinked
  · rw [hn']
    refine Formula.Every.map (hex.imp fun g _ m _ hm ht L hL => ?_)
    obtain ⟨L₀, hL₀, rfl⟩ := Option.map_eq_some_iff.mp hL
    exact hm.links ht L₀ hL₀
  · rw [henv] at hmeaning
    rw [hmeaning.1] at hm
    rw [hn', Node.cell_map, hcell, hmeaning.2]
    change (n.cell.links).map _ = _
    rw [h.links hm]
    rfl
  · rw [hindices]
    exact h.owns

end Tree.Right

/-- The same nodes have links after an exchange, with the context renamed in them. -/
theorem Tree.Linked.replaced {minimalLinks : Bool} {t : Tree} {n : Node} {f : Formula} {p v : String}
    {old new : Context} (h : t.Linked minimalLinks n) {n' : Node}
    (hn' : n' = (f.replaced p v old.id new (boundTo old.id) n).map
      (Tree.Right.renamed v old.id new.id)) :
    Linked minimalLinks { t with root := some n' } n' := by
  refine h.of_map (g := fun c => { c.core with links := c.links.map fun _ => ∅ })
    (fun c => ⟨rfl, rfl, Option.isSome_map⟩) ?_ rfl
  have hcore : (f.replaced p v old.id new (boundTo old.id) n).map Cell.core = n.map Cell.core :=
    Formula.map_core_replaced f n
  have hlinks := congrArg (Node.map fun c => { c with links := c.links.map fun _ => ∅ }) hcore
  rw [Node.map_map, Node.map_map] at hlinks
  rw [hn', Node.map_map]
  refine Eq.trans (Node.map_congr fun c _ => ?_) hlinks
  simp [Tree.Right.renamed, Cell.core, Function.comp_def]

/-- The slots of the nodes with their truths, in pre-order. -/
def Tree.truths (t : Tree) : List (Nat × Truth) :=
  t.cells.map fun c => (c.index, c.truth)

/-- **Every node keeps its truth** in an instantiation with branches replaced and links renamed. -/
theorem Tree.truths_replaced (t : Tree) (f : Formula) (p v : String) (old new : Context)
    (selected : Node → Bool) {n : Node} (hn : t.root = some n) :
    Tree.truths { t with
      root := some ((f.replaced p v old.id new selected n).map
        (Tree.Right.renamed v old.id new.id)) } = t.truths := by
  have hcells : ((f.replaced p v old.id new selected n).map Cell.core).cells =
      (n.map Cell.core).cells :=
    congrArg Node.cells (Formula.map_core_replaced f n)
  have hcore := congrArg (List.map fun c : Cell => (c.index, c.truth)) hcells
  simp only [Node.cells_map, List.map_map] at hcore
  unfold truths cells
  rw [hn]
  simp only [Node.cells_map, List.map_map]
  exact hcore

namespace Rule

variable {engine : Engine} {r : Rule} {n : Node}

/-- The branches of a replacement that fits are those bound to the context that is replaced. -/
theorem rebindBranches_turns {rep : Replacement} (hP : r.facts.pools.Keyed)
    (hright : r.tree.Right engine r.facts.pools r.sentence.formula n)
    (hfits : rep.Fits engine.registry r.facts.pools r.sentence n) :
    Cycle.Turns (rep.branches.forM fun b => Cycle.onTree (Tree.rebind b rep.var rep.add)) r ⟨⟩
      { r with tree := { r.tree with root := some (r.sentence.formula.replaced rep.pattern rep.var
        rep.del.id rep.add (boundTo rep.del.id) n) } } := by
  have hnd : n.indices.Nodup := hright.owns.nodup
  have hmem : ∀ b, b ∈ rep.branches ↔ ∃ k ∈ r.sentence.formula.branchesOver rep.pattern n,
      boundTo rep.del.id k = true ∧ k.index = b := by
    intro b
    simp only [hfits.branches.mem_iff, List.mem_map, List.mem_filter, and_assoc]
  have hslots := hnd.sublist (Formula.branchesOver_sublist (p := rep.pattern) r.sentence.formula n)
  have hbranches : rep.branches.Nodup :=
    hfits.branches.nodup_iff.mpr (hslots.sublist (List.filter_sublist.map _))
  have hstart : r.tree.root = some (r.sentence.formula.replaced rep.pattern rep.var rep.del.id
      rep.add (inSlots []) n) := by
    have hnone : ∀ k ∈ r.sentence.formula.branchesOver rep.pattern n, inSlots [] k = false :=
      fun _ _ => rfl
    rw [Formula.replaced_of_unselected hright.placed hnone, hright.root]
  have hrebind := rebindAll_turns rep.var rep.add hP hright.placed hnd [] hbranches nofun
    (fun b hb => (hmem b).mp hb) hstart
  have hsel : r.sentence.formula.replaced rep.pattern rep.var rep.del.id rep.add
      (inSlots ([] ++ rep.branches)) n = r.sentence.formula.replaced rep.pattern rep.var rep.del.id
      rep.add (boundTo rep.del.id) n := by
    refine Formula.replaced_congr _ fun k hk => ?_
    rw [List.nil_append, Bool.eq_iff_iff, inSlots, decide_eq_true_iff, hmem]
    constructor
    · rintro ⟨k', hk', hb, e⟩
      rwa [List.inj_on_of_nodup_map hslots hk hk' e.symm]
    · exact fun hb => ⟨k, hk, hb, rfl⟩
  rwa [hsel] at hrebind

/-- A context is renamed in all links; if it keeps its identity, there is nothing to rename. -/
theorem renameLinks_turns (v : String) (a b : Nat) {root : Node} (hroot : r.tree.root = some root) :
    Cycle.Turns (if a ≠ b then Cycle.onTree (modify fun t => t.renameLinks v a b) else pure ⟨⟩) r ⟨⟩
      { r with tree := { r.tree with root := some (root.map (Tree.Right.renamed v a b)) } } := by
  by_cases hid : a = b
  · have hsame : root.map (Tree.Right.renamed v a b) = root := by
      refine Node.map_eq_self fun c _ => ?_
      unfold Tree.Right.renamed
      rw [hid]
      cases hl : c.links with
      | none => rw [Option.map_none, ← hl]
      | some L => rw [Option.map_some, LinkSet.rename_self, ← hl]
    rw [if_neg (not_not.mpr hid), hsame, ← hroot]
    exact Cycle.turns_pure _ _
  · rw [if_pos hid]
    have hrenamed : r.tree.renameLinks v a b =
        { r.tree with root := some (root.map (Tree.Right.renamed v a b)) } := by
      unfold Tree.renameLinks Tree.mapRoot
      rw [hroot]
      rfl
    rw [← hrenamed]
    exact Cycle.turns_modifyTree _ _

theorem calm_replaced (f : Formula) (p v : String) (old new : Context) (selected : Node → Bool)
    (h : n.Calm) :
    ((f.replaced p v old.id new selected n).map (Tree.Right.renamed v old.id new.id)).Calm := by
  have hrebound : (f.replaced p v old.id new selected n).Calm :=
    Node.calm_of_map (g := Cell.core) (fun _ => rfl) (Formula.map_core_replaced f n).symm h
  refine Node.calm_of_unlinked ?_ hrebound
  rw [Node.map_map]
  rfl

/-- **A replacement that fits** keeps a rule sound, and exchanges the contexts in its facts. -/
theorem swapBranches_turns {rep : Replacement} (h : r.Sound engine)
    (hright : r.tree.Right engine r.facts.pools r.sentence.formula n) (hcalm : n.Calm)
    (hfits : rep.Fits engine.registry r.facts.pools r.sentence n)
    (hx : r.facts.pools.Exchangeable rep.pattern rep.del rep.add) :
    ∃ r', Cycle.Turns (swapBranches rep.pattern rep.var rep.del rep.add rep.branches) r ⟨⟩ r' ∧
      r'.Sound engine ∧ r'.sentence = r.sentence ∧
      r'.facts.pools = r.facts.pools.exchange rep.pattern rep.del.id rep.add ∧
      r'.tree.truths = r.tree.truths := by
  let rebound := r.sentence.formula.replaced rep.pattern rep.var rep.del.id rep.add
    (boundTo rep.del.id) n
  let n' := rebound.map (Tree.Right.renamed rep.var rep.del.id rep.add.id)
  let tree : Tree := { r.tree with root := some n' }
  have hrebind : Cycle.Turns (α := PUnit) _ r ⟨⟩ { r with tree := { r.tree with root := some rebound } } :=
    rebindBranches_turns h.keyed hright hfits
  have hrename : Cycle.Turns (α := PUnit) _ { r with tree := { r.tree with root := some rebound } } ⟨⟩
      { r with tree } :=
    renameLinks_turns (r := { r with tree := { r.tree with root := some rebound } }) rep.var
      rep.del.id rep.add.id rfl
  let r₁ : Rule := { r with
    tree
    facts := { r.facts with pools := r.facts.pools.exchange rep.pattern rep.del.id rep.add } }
  have hright' : r₁.tree.Right engine r₁.facts.pools r₁.sentence.formula n' :=
    hright.replaced hx h.keyed h.wellFormed.patterns hfits.binds hfits.probed rfl
  have hcalm' : n'.Calm := calm_replaced _ _ _ _ _ _ hcalm
  have hlinked' : r₁.tree.Linked engine.minimalLinks n' := (h.linked n hright.root).replaced rfl
  have hup : r₁.Upright engine :=
    .of_right ⟨h.wellFormed, h.keyed.exchange _ _ _⟩ hright' hcalm' hlinked'
  let r₂ : Rule :=
    { r₁ with status := r₁.sentence.formula.status engine.registry r₁.facts.pools }
  have hswap : Cycle.Turns (do
        Cycle.onFacts (FactStore.swap rep.pattern rep.del.id rep.add)
        updateStatus) { r with tree } ⟨⟩ r₂ :=
    (Cycle.turns_onFacts (r := { r with tree }) (FactStore.swap_ok hx)).bind
      (updateStatus_turns hup)
  refine ⟨r₂, hrebind.bind (hrename.when_bind hswap), ?_, rfl, rfl,
    r.tree.truths_replaced r.sentence.formula rep.pattern rep.var rep.del rep.add
      (boundTo rep.del.id) hright.root⟩
  exact ⟨.of_right ⟨h.wellFormed, h.keyed.exchange _ _ _⟩ hright' hcalm' hlinked', h.deltas, h.clean,
    h.noError, rfl⟩

end Rule

end RuleMonitor
