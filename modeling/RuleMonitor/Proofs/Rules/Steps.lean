import RuleMonitor.Proofs.Evaluation.Incremental
import RuleMonitor.Proofs.Evaluation.Linking
import RuleMonitor.Rule

/-!
# Parts of a cycle

Each part of a cycle turns a rule into another one, whatever fan-outs and phases were counted before,
or it breaks off. After the truths are found and the links generated, the instantiation is right for
the facts, up to truths that still wait to be committed.

* `Cycle.Turns`: a part of a cycle that succeeds; `Cycle.Breaks`: one that fails; `Cycle.Leads`: one
  that goes on as another one.
* `Tree.Right`: the instantiation is right; `Tree.Right.commit`: it stays so when truths are committed.
* `Tree.Linked`: the nodes that are trusted have links.
* **`Setting.explainTree_yields`**: the links make an instantiation right.
* **`Rule.rebuild_turns`**: a rebuilt instantiation is right; **`Rule.rebuild_breaks`**: it is not
  rebuilt if the formula does not evaluate.
-/

namespace RuleMonitor

open Std (ExtTreeMap ExtTreeSet)

namespace Cycle

variable {α β : Type} {r r₁ r₂ : Rule} {a : α} {b : β}

/-- A part of a cycle succeeds with a value and turns a rule into another one. -/
def Turns (x : Routine Cycle α) (r : Rule) (a : α) (r' : Rule) : Prop :=
  ∀ c : Cycle, c.rule = r → ∃ c', x c = .ok a c' ∧ c'.rule = r'

/-- A part of a cycle that succeeds does with the rule what is known of it. -/
theorem Turns.of_ok {x : Routine Cycle α} {a' : α} {c c' : Cycle} (h : Turns x c.rule a r₁)
    (hok : x c = .ok a' c') : a' = a ∧ c'.rule = r₁ := by
  obtain ⟨c₁, h₁, hc₁⟩ := h c rfl
  rw [hok] at h₁
  cases h₁
  exact ⟨rfl, hc₁⟩

theorem Turns.unique {x : Routine Cycle α} {a' : α} (h : Turns x r a r₁) (h' : Turns x r a' r₂) :
    r₁ = r₂ := by
  obtain ⟨c₁, h₁, rfl⟩ := h { rule := r } rfl
  exact (h'.of_ok (c := { rule := r }) h₁).2

theorem turns_pure (a : α) (r : Rule) : Turns (pure a) r a r :=
  fun c hc => ⟨c, rfl, hc⟩

theorem Turns.bind {x : Routine Cycle α} {f : α → Routine Cycle β} (hx : Turns x r a r₁)
    (hf : Turns (f a) r₁ b r₂) : Turns (x >>= f) r b r₂ := fun c hc => by
  obtain ⟨c₁, h₁, hc₁⟩ := hx c hc
  obtain ⟨c₂, h₂, hc₂⟩ := hf c₁ hc₁
  exact ⟨c₂, by rw [Routine.bind_ok h₁, h₂], hc₂⟩

/-- A part that is made under a condition, with what follows it in either case. -/
theorem Turns.when_bind {p : Prop} [Decidable p] {x : Routine Cycle PUnit}
    {f : PUnit → Routine Cycle β} (hx : Turns (if p then x else pure ⟨⟩) r ⟨⟩ r₁)
    (hf : Turns (f ⟨⟩) r₁ b r₂) : Turns (if p then x >>= f else f ⟨⟩) r b r₂ := by
  split_ifs at hx ⊢
  · exact hx.bind hf
  · exact hx.bind (f := f) hf

theorem turns_get {f : Cycle → Routine Cycle β} (hf : ∀ c : Cycle, c.rule = r → Turns (f c) r b r₂) :
    Turns (get >>= f) r b r₂ :=
  fun c hc => hf c hc c hc

theorem turns_modifyRule (f : Rule → Rule) (r : Rule) : Turns (modifyRule f) r ⟨⟩ (f r) :=
  fun c hc => ⟨{ c with rule := f c.rule }, rfl, by rw [hc]⟩

theorem turns_enter (phase : Phase) (r : Rule) : Turns (enter phase) r ⟨⟩ r :=
  fun c hc => ⟨{ c with phases := c.phases ++ [phase] }, rfl, hc⟩

theorem turns_evaluate {x : Eval α} (hx : x.Yields a) (r : Rule) : Turns (evaluate x) r a r :=
  fun c hc => by
    obtain ⟨k, hk⟩ := hx c.fanOuts
    exact ⟨{ c with fanOuts := k }, Routine.onPart_ok hk, hc⟩

theorem turns_onFacts {x : Routine FactStore α} {facts : FactStore} (hx : x r.facts = .ok a facts) :
    Turns (onFacts x) r a { r with facts } := fun c hc => by
  subst hc
  exact ⟨{ c with rule := { c.rule with facts } }, Routine.onPart_ok hx, rfl⟩

theorem turns_onTree {x : Routine Tree α} {tree : Tree} (hx : x r.tree = .ok a tree) :
    Turns (onTree x) r a { r with tree } := fun c hc => by
  subst hc
  exact ⟨{ c with rule := { c.rule with tree } }, Routine.onPart_ok hx, rfl⟩

theorem turns_modifyFacts (f : FactStore → FactStore) (r : Rule) :
    Turns (onFacts (modify f)) r ⟨⟩ { r with facts := f r.facts } :=
  turns_onFacts rfl

theorem turns_modifyTree (f : Tree → Tree) (r : Rule) :
    Turns (onTree (modify f)) r ⟨⟩ { r with tree := f r.tree } :=
  turns_onTree rfl

theorem turns_ofExcept {x : Except Failure α} (hx : x = .ok a) (r : Rule) :
    Turns (Routine.ofExcept x) r a r :=
  fun c hc => ⟨c, Routine.ofExcept_ok hx c, hc⟩

theorem Turns.attempt {x : Routine Cycle α} (hx : Turns x r a r₁) :
    Turns (Routine.attempt x) r (.ok a) r₁ := fun c hc => by
  obtain ⟨c₁, h₁, hc₁⟩ := hx c hc
  exact ⟨c₁, Routine.attempt_ok h₁, hc₁⟩

/-- A part of a cycle fails, and leaves a rule. -/
def Breaks (x : Routine Cycle α) (r : Rule) (e : Failure) (r' : Rule) : Prop :=
  ∀ c : Cycle, c.rule = r → ∃ c', x c = .error e c' ∧ c'.rule = r'

/-- A part of a cycle goes on as another one, from another rule. -/
def Leads (x : Routine Cycle β) (r : Rule) (y : Routine Cycle β) (r' : Rule) : Prop :=
  ∀ c : Cycle, c.rule = r → ∃ c', x c = y c' ∧ c'.rule = r'

variable {e : Failure}

theorem Breaks.bind {x : Routine Cycle α} (hx : Breaks x r e r₁) (f : α → Routine Cycle β) :
    Breaks (x >>= f) r e r₁ := fun c hc => by
  obtain ⟨c₁, h₁, hc₁⟩ := hx c hc
  exact ⟨c₁, Routine.bind_error h₁, hc₁⟩

theorem Breaks.attempt {x : Routine Cycle α} (hx : Breaks x r e r₁) :
    Turns (Routine.attempt x) r (.error e) r₁ := fun c hc => by
  obtain ⟨c₁, h₁, hc₁⟩ := hx c hc
  exact ⟨c₁, Routine.attempt_error h₁, hc₁⟩

theorem Turns.bind_breaks {x : Routine Cycle α} {f : α → Routine Cycle β} (hx : Turns x r a r₁)
    (hf : Breaks (f a) r₁ e r₂) : Breaks (x >>= f) r e r₂ := fun c hc => by
  obtain ⟨c₁, h₁, hc₁⟩ := hx c hc
  obtain ⟨c₂, h₂, hc₂⟩ := hf c₁ hc₁
  exact ⟨c₂, by rw [Routine.bind_ok h₁, h₂], hc₂⟩

theorem breaks_get {f : Cycle → Routine Cycle β}
    (hf : ∀ c : Cycle, c.rule = r → Breaks (f c) r e r₂) : Breaks (get >>= f) r e r₂ :=
  fun c hc => hf c hc c hc

theorem breaks_throw (e : Failure) (r : Rule) : Breaks (throw e : Routine Cycle α) r e r :=
  fun c hc => ⟨c, rfl, hc⟩

theorem breaks_evaluate {K : Failure → Prop} {x : Eval α} (hx : x.Fails K) (r : Rule) :
    ∃ e, K e ∧ Breaks (evaluate x) r e r := by
  obtain ⟨e, he, hx⟩ := hx
  refine ⟨e, he, fun c hc => ?_⟩
  obtain ⟨k, hk⟩ := hx c.fanOuts
  exact ⟨{ c with fanOuts := k }, Routine.onPart_error hk, hc⟩

theorem Turns.leads {x : Routine Cycle α} {f : α → Routine Cycle β} (hx : Turns x r a r₁) :
    Leads (x >>= f) r (f a) r₁ := fun c hc => by
  obtain ⟨c₁, h₁, hc₁⟩ := hx c hc
  exact ⟨c₁, Routine.bind_ok h₁, hc₁⟩

theorem leads_get {f : Cycle → Routine Cycle β} {y : Routine Cycle β}
    (hf : ∀ c : Cycle, c.rule = r → Leads (f c) r y r₂) : Leads (get >>= f) r y r₂ :=
  fun c hc => hf c hc c hc

theorem Leads.refl (x : Routine Cycle β) (r : Rule) : Leads x r x r :=
  fun c hc => ⟨c, rfl, hc⟩

theorem Leads.trans {x y z : Routine Cycle β} (h₁ : Leads x r y r₁) (h₂ : Leads y r₁ z r₂) :
    Leads x r z r₂ := fun c hc => by
  obtain ⟨c₁, hx, hc₁⟩ := h₁ c hc
  obtain ⟨c₂, hy, hc₂⟩ := h₂ c₁ hc₁
  exact ⟨c₂, hx.trans hy, hc₂⟩

theorem Leads.turns {x y : Routine Cycle β} (h : Leads x r y r₁) (hy : Turns y r₁ b r₂) :
    Turns x r b r₂ := fun c hc => by
  obtain ⟨c₁, hx, hc₁⟩ := h c hc
  obtain ⟨c₂, hy, hc₂⟩ := hy c₁ hc₁
  exact ⟨c₂, hx.trans hy, hc₂⟩

theorem Leads.breaks {x y : Routine Cycle β} (h : Leads x r y r₁) (hy : Breaks y r₁ e r₂) :
    Breaks x r e r₂ := fun c hc => by
  obtain ⟨c₁, hx, hc₁⟩ := h c hc
  obtain ⟨c₂, hy, hc₂⟩ := hy c₁ hc₁
  exact ⟨c₂, hx.trans hy, hc₂⟩

end Cycle

/-! ## Instantiations that are right -/

/-- The nodes of which the links are trusted between cycles. -/
def Tree.Trusted (minimalLinks : Bool) (t : Tree) (i : Nat) : Prop :=
  minimalLinks = true → i ∈ t.substantial

/-- The instantiation has the branches, the truths and the links of a closed formula over pools. -/
structure Tree.Right (engine : Engine) (P : Pools) (f : Formula) (t : Tree) (n : Node) : Prop where
  root : t.root = some n
  place : n.place = (none, ∅)
  placed : f.Every (Formula.Placed P) n
  found : f.Every (Formula.Found engine.registry P) n
  cached : f.Every (Formula.Cached engine.registry P (t.Trusted engine.minimalLinks)) n
  links : engine.minimalLinks = false ∨ f.holds engine.registry P ∅ = false →
    n.cell.links = some (f.links engine.registry P ∅)
  owns : t.Owns n.indices

namespace Tree.Right

variable {engine : Engine} {P : Pools} {f : Formula} {t : Tree} {n : Node}

theorem env (h : t.Right engine P f n) : n.cell.env = ∅ :=
  congrArg Prod.snd h.place

theorem staged (h : t.Right engine P f n) :
    n.cell.staged = .ofBool (f.holds engine.registry P ∅) := by
  rw [h.found.root.1, h.env]

theorem map_base_commit (n : Node) : (n.map Cell.commit).map Cell.base = n.map Cell.base := by
  rw [Node.map_map]
  refine Node.map_congr fun c _ => ?_
  unfold Function.comp Cell.commit
  split <;> rfl

theorem found_commit {r : Registry} {c : Cell} {kids kids' : List Node} (h : f.Found r P c kids)
    (hk : kids.map (fun kid => kid.cell.commit) = kids'.map Node.cell) :
    f.Found r P c.commit kids' := by
  have hentry : ∀ b : Cell, (b.commit.bound.getD 0, b.commit.staged) = (b.bound.getD 0, b.staged) := by
    intro b
    unfold Cell.commit
    split <;> rfl
  have hks : Node.stagedTruths kids = Node.stagedTruths kids' := by
    have := congrArg (List.map fun b : Cell => (b.bound.getD 0, b.staged)) hk
    rw [List.map_map, List.map_map] at this
    refine congrArg (ExtTreeMap.ofList · compare) (Eq.trans ?_ this)
    exact List.map_congr_left fun kid _ => (hentry kid.cell).symm
  obtain ⟨ht, hc, hb⟩ := h
  rw [hks] at hb
  unfold Cell.commit
  by_cases hp : c.pending = true
  · rw [if_pos hp]
    exact ⟨ht, fun _ => rfl, hb⟩
  · rw [if_neg hp]
    exact ⟨ht, hc, hb⟩

theorem commit (h : t.Right engine P f n) :
    t.commit.Right engine P f (n.map Cell.commit) ∧ (n.map Cell.commit).Calm := by
  have hindex : ∀ c : Cell, c.commit.index = c.index := by
    intro c
    unfold Cell.commit
    split <;> rfl
  have hi : (n.map Cell.commit).indices = n.indices := by
    unfold Node.indices
    rw [Node.cells_map, List.map_map]
    exact List.map_congr_left fun c _ => hindex c
  refine ⟨⟨?_, ?_, ?_, ?_, ?_, ?_, ?_⟩, ?_⟩
  · rw [Tree.commit, Tree.mapRoot, h.root]
    rfl
  · rw [Cell.place_eq_of_base (b := n), h.place]
    simpa only [Node.cell_map] using congrArg Node.cell (map_base_commit n)
  · exact h.placed.placed_of_base (map_base_commit n).symm
  · have he : n.map Cell.commit = (n.map Cell.commit).map id :=
      (Node.map_eq_self fun c _ => rfl).symm
    refine Formula.Every.of_map ?_ he h.found
    rintro f c _ kids kids' rfl hk hf
    exact found_commit hf hk
  · exact h.cached.cached_of_base (map_base_commit n).symm
  · intro hl
    rw [← h.links hl, Node.cell_map]
    unfold Cell.commit
    split <;> rfl
  · rw [hi]
    exact h.owns
  · intro c hc
    rw [Node.cells_map] at hc
    obtain ⟨b, -, rfl⟩ := List.mem_map.mp hc
    unfold Cell.commit
    split
    · rfl
    · exact Bool.eq_false_iff.mpr ‹_›

end Tree.Right

/-- The nodes of which the links are trusted have links. With minimal links, the root is one of them if
and only if it is false. -/
structure Tree.Linked (minimalLinks : Bool) (t : Tree) (n : Node) : Prop where
  links : ∀ c ∈ n.cells, t.Trusted minimalLinks c.index → c.links.isSome = true
  nodes : ∀ i ∈ t.substantial, i ∈ n.indices
  root : minimalLinks = true → (n.index ∈ t.substantial ↔ n.cell.staged = .no)

namespace Tree.Linked

variable {minimalLinks : Bool} {t t' : Tree} {n : Node}

theorem all (h : t.Linked minimalLinks n) (hm : minimalLinks = false) : n.Linked :=
  fun c hc => h.links c hc fun ht => absurd (hm.symm.trans ht) Bool.false_ne_true

theorem of_map (h : t.Linked minimalLinks n) {g : Cell → Cell}
    (hg : ∀ c, (g c).index = c.index ∧ (g c).staged = c.staged ∧
      (g c).links.isSome = c.links.isSome)
    {n' : Node} (hn : n'.map g = n.map g) (ht : t'.substantial = t.substantial) :
    t'.Linked minimalLinks n' := by
  have hi : n'.indices = n.indices := Node.indices_eq_of_map (fun c => (hg c).1) hn
  have hroot : g n'.cell = g n.cell := by simpa only [Node.cell_map] using congrArg Node.cell hn
  refine ⟨fun c hc htrust => ?_, fun i hm => ?_, fun hm => ?_⟩
  · obtain ⟨b, hb, e⟩ : ∃ b ∈ n.cells, g b = g c := by
      refine List.mem_map.mp ?_
      rw [← Node.cells_map, ← hn, Node.cells_map]
      exact List.mem_map_of_mem hc
    have hindex : b.index = c.index := by rw [← (hg b).1, ← (hg c).1, e]
    rw [← (hg c).2.2, ← e, (hg b).2.2]
    refine h.links b hb fun hm => ?_
    rw [hindex, ← ht]
    exact htrust hm
  · rw [hi]
    exact h.nodes i (ht ▸ hm)
  · have hindex : n'.index = n.index := by
      rw [Node.index, Node.index, ← (hg n'.cell).1, ← (hg n.cell).1, hroot]
    rw [ht, hindex, h.root hm, ← (hg n'.cell).2.1, ← (hg n.cell).2.1, hroot]

theorem commit (h : t.Linked minimalLinks n) : t.commit.Linked minimalLinks (n.map Cell.commit) := by
  refine h.of_map (g := fun c => { c with truth := .unknown, pending := false })
    (fun _ => ⟨rfl, rfl, rfl⟩) ?_ rfl
  rw [Node.map_map]
  refine Node.map_congr fun c _ => ?_
  unfold Function.comp Cell.commit
  split <;> rfl

end Tree.Linked

theorem Node.calm_of_map {g : Cell → Cell} (hg : ∀ c, (g c).pending = c.pending) {n n' : Node}
    (e : n.map g = n'.map g) (h : n.Calm) : n'.Calm := by
  intro c hc
  have hm : g c ∈ (n.map g).cells := by
    rw [e, Node.cells_map]
    exact List.mem_map.mpr ⟨c, hc, rfl⟩
  rw [Node.cells_map] at hm
  obtain ⟨b, hb, hbc⟩ := List.mem_map.mp hm
  have hp := congrArg Cell.pending hbc
  rw [hg, hg] at hp
  exact hp.symm.trans (h b hb)

theorem Node.calm_of_unlinked {n n' : Node} (e : n.map Cell.unlinked = n'.map Cell.unlinked)
    (h : n.Calm) : n'.Calm :=
  calm_of_map (g := Cell.unlinked) (fun _ => rfl) e h

/-! ## Parts of cycles -/

/-- What the links of an instantiation are generated from. -/
structure Setting.Explicable (s : Setting) (P : Pools) (f : Formula) (t : Tree) (n : Node) :
    Prop where
  root : t.root = some n
  place : n.place = (none, ∅)
  placed : f.Every (Formula.Placed P) n
  found : f.Every (Formula.Found s.registry P) n
  carried : f.Every (Formula.Carried s.registry P s.focus (s.Trusts t.wasSubstantial.contains)) n
  primed : s.minimalLinks = false → f.Every (Formula.Primed s.focus) n
  started : t.substantial = ∅
  owns : t.Owns n.indices

theorem Setting.explicable_of_evaluated {s : Setting} {P : Pools} {f : Formula} {t : Tree} {n : Node}
    {stage : Stage} {b : Bool × Node} (hb : Evaluated s.registry P stage none f n b)
    (hplace : n.place = (none, ∅)) (hp : f.Every (Formula.Placed P) n)
    (hc : f.Every (Formula.Carried s.registry P s.focus (s.Trusts t.wasSubstantial.contains)) n)
    (hl : s.minimalLinks = false → f.Every (Formula.Primed s.focus) n)
    (hsub : t.substantial = ∅) (ho : t.Owns n.indices) :
    s.Explicable P f { t with root := some b.2 } b.2 where
  root := rfl
  place := hb.traced.place_eq.trans hplace
  placed := hp.placed_of_base hb.traced.base.symm
  found := by
    rw [← Node.map_substitute_none b.2]
    exact hb.found
  carried := hc.carried_of_base hb.traced.base.symm
  primed hm := (hl hm).primed_of_base hb.traced.base.symm
  started := hsub
  owns := by
    rw [Node.indices_eq_of_map (g := Cell.base) (fun _ => rfl) hb.traced.base]
    exact ho

/-- A true rule is not explained if links are kept minimal, and nothing is trusted any more. -/
theorem Setting.Explicable.skipped {s : Setting} {P : Pools} {f : Formula} {t : Tree} {n : Node}
    (h : s.Explicable P f t n) (hm : s.minimalLinks = true) (ht : f.holds s.registry P ∅ = true) :
    t.Right ⟨s.registry, s.minimalLinks⟩ P f n ∧ t.Linked s.minimalLinks n := by
  have hnone : ∀ {i : Nat}, i ∉ t.substantial := fun {i} => by
    rw [h.started]
    exact ExtTreeSet.not_mem_empty
  have hlinks : s.minimalLinks = false ∨ f.holds s.registry P ∅ = false →
      n.cell.links = some (f.links s.registry P ∅) := by
    rintro (hm' | ht')
    · exact absurd (hm'.symm.trans hm) Bool.false_ne_true
    · exact absurd (ht'.symm.trans ht) Bool.false_ne_true
  refine ⟨⟨h.root, h.place, h.placed, h.found, ?_, hlinks, h.owns⟩,
    ⟨fun _ _ hi => absurd (hi hm) hnone, fun _ hi => absurd hi hnone, fun _ => ?_⟩⟩
  · exact h.carried.imp fun g _ m _ _ hi => absurd (hi hm) hnone
  · rw [h.found.root.1, show n.cell.env = ∅ from congrArg Prod.snd h.place, ht]
    exact ⟨fun hi => absurd hi hnone, nofun⟩

/-- An explanation makes the instantiation right, unless it should have been skipped. -/
theorem Setting.Explicable.explained {s : Setting} {P : Pools} {f : Formula} {t : Tree} {n : Node}
    {e : Explained} (h : s.Explicable P f t n) (hex : s.Explains P f n e) (hl : s.LeavesRoot f n e)
    (hno : s.minimalLinks = true → f.holds s.registry P ∅ = false) :
    ({ t with root := some e.node }.markSubstantial e.visited).Right ⟨s.registry, s.minimalLinks⟩ P f e.node ∧
      ({ t with root := some e.node }.markSubstantial e.visited).Linked s.minimalLinks e.node := by
  have henv : n.cell.env = ∅ := congrArg Prod.snd h.place
  have hcell : e.node.cell.unlinked = n.cell.unlinked := by
    simpa only [Node.cell_map] using congrArg Node.cell hex.unlinked
  have hi : e.node.indices = n.indices :=
    Node.indices_eq_of_map (g := Cell.unlinked) (fun _ => rfl) hex.unlinked
  have hmarked : ∀ {i : Nat}, i ∈ t.substantial.insertMany e.visited ↔ i ∈ e.visited := by
    intro i
    rw [h.started, ExtTreeSet.mem_insertMany_list, or_iff_right ExtTreeSet.not_mem_empty,
      List.contains_iff_mem]
  obtain ⟨hleaves, hvisited⟩ := hl
  constructor
  · exact {
      root := rfl
      place := h.place ▸ Prod.ext (congrArg Cell.bound hcell :) (congrArg Cell.env hcell :)
      placed := h.placed.placed_of_unlinked hex.unlinked.symm
      found := h.found.found_of_unlinked hex.unlinked.symm
      cached := hex.cached.cached_mono fun i _ ht hm => hmarked.mp (ht hm)
      links := fun _ => by rw [hex.own, hex.links, henv]
      owns := hi ▸ h.owns }
  · refine ⟨fun c hc htrust => ?_, fun i hm => ?_, fun hm => ?_⟩
    · cases hm : s.minimalLinks with
      | false => exact hleaves.linked hm (h.primed hm) c hc
      | true =>
        have hd : e.node.indices.Nodup := hi ▸ h.owns.nodup
        exact (hleaves.visited _ (hmarked.mp (htrust hm))).isSome hd hc rfl
    · rw [hi]
      exact hex.visited i (hmarked.mp hm)
    · have hstaged : e.node.cell.staged = .no := by
        rw [show e.node.cell.staged = n.cell.staged from (congrArg Cell.staged hcell :),
          h.found.root.1, henv, hno hm]
        rfl
      have hindex : e.node.index = n.index := (congrArg Cell.index hcell :)
      exact ⟨fun _ => hstaged, fun _ => hmarked.mpr (hindex ▸ hvisited hm)⟩

/-- **The links make an instantiation right**, and are left where they are trusted. -/
theorem Setting.explainTree_yields {s : Setting} {P : Pools} {t : Tree} {n : Node}
    (h : s.Explicable P s.sentence.formula t n) :
    ∃ t' n', (s.explainTree t).Yields t' ∧
      t'.Right ⟨s.registry, s.minimalLinks⟩ P s.sentence.formula n' ∧
      t'.Linked s.minimalLinks n' ∧ n'.map Cell.unlinked = n.map Cell.unlinked := by
  have henv : n.cell.env = ∅ := congrArg Prod.snd h.place
  have hst : n.cell.stagedTruth = .ok (s.sentence.formula.holds s.registry P ∅) := by
    unfold Cell.stagedTruth
    rw [h.found.root.1, henv, Truth.toBool?_ofBool]
  unfold explainTree
  rw [h.root]
  by_cases hskip : (s.minimalLinks && s.sentence.formula.holds s.registry P ∅) = true
  · obtain ⟨hm, ht⟩ := Bool.and_eq_true_iff.mp hskip
    obtain ⟨hright, hlinked⟩ := h.skipped hm ht
    refine ⟨t, n, (Eval.yields_ofExcept hst).bind ?_, hright, hlinked, rfl⟩
    rw [if_pos hskip]
    exact Eval.yields_pure t
  · obtain ⟨e, he, hex⟩ := explain_yields h.placed h.found h.carried h.owns.nodup
    have hno : s.minimalLinks = true → s.sentence.formula.holds s.registry P ∅ = false := fun hm => by
      rw [hm, Bool.true_and] at hskip
      exact eq_false_of_ne_true hskip
    obtain ⟨hright, hlinked⟩ := h.explained hex ((explain_leaves n).of_yields he) hno
    refine ⟨_, e.node, (Eval.yields_ofExcept hst).bind ?_, hright, hlinked, hex.unlinked⟩
    rw [if_neg hskip]
    exact he.bind (Eval.yields_pure _)

namespace Rule

variable {engine : Engine} {r : Rule} {P : Pools} {t : Tree} {n : Node}

theorem generateLinks_turns_of_yields {focus : Focus} {concurrent : List Nat} {tree : Tree}
    (h : ((r.setting engine focus concurrent).explainTree r.tree).Yields tree) :
    Cycle.Turns (generateLinks engine focus concurrent) r ⟨⟩ { r with tree } := by
  refine (Cycle.turns_enter .links r).bind (Cycle.turns_get fun c hc => ?_)
  rw [hc]
  exact (Cycle.turns_evaluate h r).bind (Cycle.turns_modifyRule _ r)

theorem generateLinks_turns (focus : Focus) (concurrent : List Nat)
    (h : (r.setting engine focus concurrent).Explicable P r.sentence.formula r.tree n) :
    ∃ tree n', Cycle.Turns (generateLinks engine focus concurrent) r ⟨⟩ { r with tree } ∧
      tree.Right engine P r.sentence.formula n' ∧ tree.Linked engine.minimalLinks n' ∧
      n'.map Cell.unlinked = n.map Cell.unlinked := by
  obtain ⟨tree, n', hy, hr, hl, hu⟩ := Setting.explainTree_yields h
  exact ⟨tree, n', generateLinks_turns_of_yields hy, hr, hl, hu⟩

theorem findTruth_turns {evaluate : Node → Eval (Bool × Node)} {b : Bool × Node}
    (ht : r.tree.root = some n) (h : (evaluate n).Yields b) :
    Cycle.Turns (findTruth evaluate) r ⟨⟩
      { r with tree := { r.tree with root := some b.2 } } := by
  refine Cycle.turns_get fun c hc => ?_
  have hroot : c.rule.tree.getRoot = .ok n := by
    rw [hc]
    unfold Tree.getRoot
    rw [ht]
  refine (Cycle.turns_ofExcept hroot r).bind ((Cycle.turns_enter .truth r).bind ?_)
  exact (Cycle.turns_evaluate h r).bind (Cycle.turns_modifyRule _ r)

theorem findTruth_breaks {K : Failure → Prop} {evaluate : Node → Eval (Bool × Node)}
    (ht : r.tree.root = some n) (h : (evaluate n).Fails K) :
    ∃ e, K e ∧ Cycle.Breaks (findTruth evaluate) r e r := by
  obtain ⟨e, he, hb⟩ := Cycle.breaks_evaluate h r
  refine ⟨e, he, Cycle.breaks_get fun c hc => ?_⟩
  have hroot : c.rule.tree.getRoot = .ok n := by
    rw [hc]
    unfold Tree.getRoot
    rw [ht]
  refine (Cycle.turns_ofExcept hroot r).bind_breaks ?_
  exact (Cycle.turns_enter .truth r).bind_breaks (hb.bind _)

/-- The structure of an instantiation is brought up to date with the deltas. -/
theorem restructure_turns (focus : Focus) (concurrent : List Nat) (hP : P.Keyed)
    (hsep : r.facts.SeparatedFrom P) (hr : r.sentence.WellFormed)
    (h : r.tree.Right engine P r.sentence.formula n) :
    ∃ tree n', Cycle.Turns (restructure engine focus concurrent) r ⟨⟩ { r with tree } ∧
      tree.root = some n' ∧
      r.sentence.formula.Reworked (r.setting engine focus concurrent) n n' ∧
      tree.Owns n'.indices ∧ r.tree.Shrinks tree := by
  obtain ⟨es, hes, hach⟩ := Setting.planNode_achieves (s := r.setting engine focus concurrent) hP
    hsep hr.read h.placed h.found h.owns.nodup
  obtain ⟨tree, n', hruns, hroot, hre, ho, hsh⟩ := hach r.tree [] h.root (by
    rw [List.append_nil]
    exact h.owns)
  rw [List.append_nil] at ho
  have hplan : ((r.setting engine focus concurrent).plan r.tree).Yields es :=
    Setting.plan_yields h.root hes
  refine ⟨tree, n', ?_, hroot, hre, ho, hsh⟩
  refine (Cycle.turns_enter .modify r).bind (Cycle.turns_get fun c hc => ?_)
  rw [hc]
  exact (Cycle.turns_evaluate hplan r).bind (Cycle.turns_onTree hruns.editAll)

theorem graft_root {s : Sentence} {fr : Fragment} (hf : ∀ f ∈ fr.formulas, f < s.nodes.length) :
    ∃ tree n, Tree.graft s none fr {} = .ok n.index tree ∧ tree.root = some n ∧
      (∃ slots, n = (fr.place slots).1) ∧ tree.substantial = ∅ ∧ tree.Owns n.indices := by
  have hfind : fr.formulas.find? (fun f => s.nodes.length ≤ f) = none :=
    List.find?_eq_none.mpr fun f hm => by simpa using hf f hm
  let slots := ({} : Tree).nextSlots fr.size
  refine ⟨{ ({} : Tree).taken fr.size with root := some (fr.place slots).1 }, (fr.place slots).1, ?_,
    rfl, ⟨slots, rfl⟩, rfl, ?_⟩
  · change Tree.graftAt s none fr {} = _
    unfold Tree.graftAt
    rw [Routine.get_bind, hfind]
    rfl
  · have hempty : ({} : Tree).Owns [] := .refl _
    have htake := hempty.take fr.size (some (fr.place slots).1) ∅ ∅
    have hlen : slots.length = fr.size := Tree.length_nextSlots _ _
    rw [List.append_nil] at htake
    rw [(fr.place_eq slots (Nat.le_of_eq hlen.symm)).1, List.take_of_length_le (Nat.le_of_eq hlen)]
    exact htake

variable (engine) in
theorem rebuild_leads (hr : r.sentence.WellFormed) (concurrent : Bool) :
    ∃ tree n, Cycle.Leads (rebuild engine concurrent) r
        (do
          let topmost := if concurrent then concurrentTopmost r.sentence else []
          findTruth ((r.setting engine .everything topmost).evaluate .commit none r.sentence.formula)
          generateLinks engine .everything topmost) { r with tree } ∧
      tree.root = some n ∧ n.place = (none, ∅) ∧
      r.sentence.formula.Every (Formula.Placed r.facts.pools) n ∧ n.Blank ∧
      tree.substantial = ∅ ∧ tree.Owns n.indices := by
  let topmost := if concurrent then concurrentTopmost r.sentence else []
  have hy := (r.setting engine .everything topmost).instantiate_yields r.sentence.formula ∅ none
  obtain ⟨t, n, hg, ht, ⟨slots, hn⟩, hsub, ho⟩ :=
    graft_root (s := r.sentence) (Formula.formulas_fragment hr.read (P := r.facts.pools))
  refine ⟨t, n, (Cycle.turns_modifyRule _ r).leads.trans (Cycle.leads_get fun c hc => ?_), ht,
    hn ▸ Formula.place_fragment _ _ _ _, hn ▸ Formula.placed_fragment _ _ _ _,
    hn ▸ Fragment.blank_place _ _, hsub, ho⟩
  rw [hc]
  exact (Cycle.turns_enter .modify _).leads.trans ((Cycle.turns_evaluate hy _).leads.trans
    (Cycle.turns_onTree hg).leads)

/-- **A rebuilt instantiation is right.** -/
theorem rebuild_turns (hr : r.sentence.WellFormed) (hP : r.facts.pools.Keyed)
    (he : r.sentence.formula.Evaluates engine.registry r.facts.pools ∅) (concurrent : Bool) :
    ∃ tree n, Cycle.Turns (rebuild engine concurrent) r ⟨⟩ { r with tree } ∧
      tree.Right engine r.facts.pools r.sentence.formula n ∧ tree.Linked engine.minimalLinks n ∧
      n.Calm := by
  let topmost := if concurrent then concurrentTopmost r.sentence else []
  let s := r.setting engine .everything topmost
  obtain ⟨t, n, hleads, ht, hplace, hplaced, hblank, hsub, ho⟩ := rebuild_leads engine
    hr concurrent
  have henv : n.cell.env = ∅ := congrArg Prod.snd hplace
  obtain ⟨b, hb, hev⟩ : ∃ b, (s.evaluate .commit none r.sentence.formula n).Yields b ∧
      Evaluated engine.registry r.facts.pools .commit none r.sentence.formula n b :=
    Setting.evaluate_yields_none (s := s) hP hplaced (hplaced.noted_of_blank hblank) (henv ▸ he)
  have hexpl : s.Explicable r.facts.pools r.sentence.formula
      { t with root := some b.2 } b.2 :=
    Setting.explicable_of_evaluated hev hplace hplaced (hplaced.carried_of_blank hblank)
      (fun _ => hplaced.primed_of_blank hblank) hsub ho
  obtain ⟨tree, n', hlinks, hright, hlinked, hu⟩ := generateLinks_turns .everything topmost
    (r := { r with tree := { t with root := some b.2 } }) hexpl
  exact ⟨tree, n', hleads.turns ((findTruth_turns ht hb).bind hlinks), hright, hlinked,
    Node.calm_of_unlinked hu.symm (hev.traced.calm rfl (Formula.calm_of_blank hblank))⟩

/-- **An instantiation is not rebuilt** if the formula does not evaluate. -/
theorem rebuild_breaks {K : Failure → Prop} (hK : Failure.CrashClosed K)
    (hr : r.sentence.WellFormed) (hP : r.facts.pools.Keyed)
    (ha : r.sentence.formula.Answers engine.registry K r.facts.pools ∅)
    (hn : ¬r.sentence.formula.Evaluates engine.registry r.facts.pools ∅) (concurrent : Bool) :
    ∃ e tree, K e ∧ Cycle.Breaks (rebuild engine concurrent) r e { r with tree } := by
  let topmost := if concurrent then concurrentTopmost r.sentence else []
  obtain ⟨t, n, hleads, ht, hplace, hplaced, hblank, -, -⟩ := rebuild_leads engine
    hr concurrent
  have henv : n.cell.env = ∅ := congrArg Prod.snd hplace
  have hfails : ((r.setting engine .everything topmost).evaluate .commit none r.sentence.formula
      n).Fails K :=
    (Setting.evaluate_decided_none (s := r.setting engine .everything topmost) hK hP hplaced
      (hplaced.noted_of_blank hblank) (henv ▸ ha)).fails (henv ▸ hn)
  obtain ⟨e, he, hb⟩ := findTruth_breaks (r := { r with tree := t }) ht hfails
  exact ⟨e, t, he, hleads.breaks (hb.bind _)⟩

end Rule

end RuleMonitor
