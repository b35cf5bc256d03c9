import RuleMonitor.Proofs.Evaluation.Generation
import RuleMonitor.Proofs.Evaluation.Rebinding
import RuleMonitor.Proofs.Kinds

/-!
# Renaming and the generation of links

Renaming commutes with all operations that links are generated with, and with the reduction to minimal
links unless the new context is bound already, when two links may become one. So the links that a tree
has need not be generated again when its branches are bound to another context: renamed, they are what
would be generated.

* `LinkSet.mem_minimal_rename`: the minimal links among renamed ones.
* `Formula.linksOf_replaced`: the links of a tree whose branches are bound to another context.
* **`LinkSet.rename_commutes`**: renaming and all that links are made with.
-/

namespace RuleMonitor

open Std (ExtTreeMap ExtTreeSet)

/-! ## Minimal links -/

theorem renameId_inj {old new i j : Nat} (hi : i ≠ new) (hj : j ≠ new)
    (h : renameId old new i = renameId old new j) : i = j := by
  unfold renameId at h
  split_ifs at h with h₁ h₂ h₂
  · rw [h₁, h₂]
  · exact absurd h.symm hj
  · exact absurd h hi
  · exact h

namespace Link

variable {l m : Link} {v : String} {old new : Nat}

theorem size_rename (l : Link) (v : String) (old new : Nat) :
    (l.rename v old new).bindings.size = l.bindings.size := by
  unfold rename
  split_ifs with h
  · have hmem : v ∈ l.bindings := ExtTreeMap.isSome_getElem?_iff_mem.mp (by rw [h]; rfl)
    exact ExtTreeMap.size_insert.trans (if_pos hmem)
  · rfl

/-- Links that do not bind the new context are within each other if the renamed links are. -/
theorem within_rename (hl : l.bindings[v]? ≠ some new) (hm : m.bindings[v]? ≠ some new) :
    (l.rename v old new).Within (m.rename v old new) ↔ l.Within m := by
  constructor
  · intro h w id hw
    have hid := h w (if v = w then renameId old new id else id)
    rw [getElem?_rename, getElem?_rename, hw] at hid
    by_cases hv : v = w
    · subst hv
      rw [if_pos rfl, if_pos rfl, if_pos rfl, Option.map_some] at hid
      obtain ⟨id', hid', e⟩ := Option.map_eq_some_iff.mp (hid rfl)
      have hne : ∀ {x : Link} {i : Nat}, x.bindings[v]? ≠ some new → x.bindings[v]? = some i →
          i ≠ new := fun hx hi e => hx (e ▸ hi)
      rw [hid', renameId_inj (hne hm hid') (hne hl hw) e]
    · rw [if_neg hv, if_neg hv, if_neg hv] at hid
      exact hid rfl
  · intro h w id hw
    rw [getElem?_rename] at hw ⊢
    by_cases hv : v = w
    · rw [if_pos hv] at hw ⊢
      obtain ⟨id', hid', e⟩ := Option.map_eq_some_iff.mp hw
      rw [h w id' hid', Option.map_some, e]
    · rw [if_neg hv] at hw ⊢
      exact h w id hw

theorem subsumedBy_rename (hl : l.bindings[v]? ≠ some new) (hm : m.bindings[v]? ≠ some new) :
    (l.rename v old new).subsumedBy (m.rename v old new) = l.subsumedBy m := by
  rw [Bool.eq_iff_iff, subsumedBy_iff, subsumedBy_iff, kind_rename, kind_rename, size_rename,
    size_rename, within_rename hm hl]

end Link

/-- **Minimal links** are renamed to minimal links, unless the new context is bound already. -/
theorem LinkSet.mem_minimal_rename {s : LinkSet} {v : String} {old new : Nat} {l : Link}
    (h : ∀ l ∈ s, l.bindings[v]? ≠ some new) :
    l ∈ (s.rename v old new).minimal ↔ ∃ l₀ ∈ s.minimal, l₀.rename v old new = l := by
  rw [mem_minimal, mem_rename]
  constructor
  · rintro ⟨⟨l₀, hl₀, rfl⟩, hmin⟩
    refine ⟨l₀, mem_minimal.mpr ⟨hl₀, fun m hm => ?_⟩, rfl⟩
    rw [← Link.subsumedBy_rename (h l₀ hl₀) (h m hm)]
    exact hmin _ (mem_rename.mpr ⟨m, hm, rfl⟩)
  · rintro ⟨l₀, hl₀, rfl⟩
    rw [mem_minimal] at hl₀
    refine ⟨⟨l₀, hl₀.1, rfl⟩, fun m' hm' => ?_⟩
    obtain ⟨m, hm, rfl⟩ := mem_rename.mp hm'
    rw [Link.subsumedBy_rename (h l₀ hl₀.1) (h m hm)]
    exact hl₀.2 m hm

/-- A link that becomes another one may make a third one superfluous. -/
example :
    let s : LinkSet := .ofList [⟨.violated, .ofList [("v", 0)]⟩,
      ⟨.violated, .ofList [("v", 1), ("w", 2)]⟩] Link.order
    s.minimal.length = 2 ∧ (s.rename "v" 0 1).minimal.length = 1 := by
  decide +kernel

/-! ## Links of a tree -/

/-- The links of branches that are bound to other contexts, with links that are renamed. -/
theorem Quantifier.collect_rename {q : Quantifier} {links links' : Node → LinkSet} {g : Node → Node}
    {v : String} {old new : Nat} {kids : List Node}
    (h : ∀ kid ∈ kids,
      (g kid).cell.bound = kid.cell.bound.map (fun id => if v = q.var then renameId old new id else id) ∧
        (g kid).cell.staged = kid.cell.staged ∧ links' (g kid) = (links kid).rename v old new) :
    q.collect links' (kids.map g) = (q.collect links kids).rename v old new := by
  induction kids with
  | nil => exact (LinkSet.rename_empty v old new).symm
  | cons kid kids ih =>
    rw [List.forall_mem_cons] at h
    obtain ⟨⟨hbound, hstaged, hlinks⟩, hrest⟩ := h
    rw [List.map_cons, collect, collect, hbound, hstaged, hlinks, ih hrest]
    cases kid.cell.bound with
    | none => rfl
    | some id =>
      rw [Option.map_some]
      dsimp only
      by_cases hw : kid.cell.staged = .ofBool q.kind.witnessTruth
      · rw [if_pos hw, if_pos hw, LinkSet.rename_union, LinkSet.rename_withBinding]
      · rw [if_neg hw, if_neg hw]

namespace Formula

variable {f body : Formula} {p v : String} {old : Nat} {new : Context} {n : Node}

/-- The links of a tree do not bind variables that its formula does not. -/
theorem rename_linksOf {b : Nat} : ∀ {n : Node}, v ∉ f.vars →
    (f.linksOf n).rename v old b = f.linksOf n := by
  induction f with
  | quantified i q body ih =>
    intro n hv
    rw [vars_quantified, List.mem_cons, not_or] at hv
    have hcollect : q.collect body.linksOf (n.kids.map id) =
        (q.collect body.linksOf n.kids).rename v old b := by
      refine Quantifier.collect_rename fun kid _ => ⟨?_, rfl, (ih hv.2).symm⟩
      simp only [if_neg hv.1, Option.map_id_fun', id_eq]
    rw [List.map_id] at hcollect
    rw [linksOf]
    exact hcollect.symm
  | binary i op left right ihl ihr =>
    intro n hv
    rw [vars_binary, List.mem_append, not_or] at hv
    rw [linksOf]
    split
    · rw [Connective.rename_explain, ihl hv.1, ihr hv.2]
    · exact LinkSet.rename_empty v old b
  | negation i body ih =>
    intro n hv
    rw [linksOf]
    split
    · rw [LinkSet.rename_flipped, ih hv]
    · exact LinkSet.rename_empty v old b
  | application i a => exact fun _ => LinkSet.rename_empty v old b

theorem linksOf_onCell {h : Cell → Cell} (hh : ∀ c, (h c).staged = c.staged) (f : Formula) (n : Node) :
    f.linksOf (n.onCell h) = f.linksOf n := by
  obtain ⟨c, kids⟩ := n
  cases f with
  | quantified i q body | negation i body | application i a => rfl
  | binary i op left right =>
    rw [linksOf, linksOf, Node.onCell, Node.cell_mk, Node.cell_mk, hh]
    rfl

theorem linksOf_rebound (f : Formula) (v : String) (new : Context) (n : Node) :
    f.linksOf (n.rebound v new) = f.linksOf n := by
  rw [Node.rebound, linksOf_onCell (h := fun c => { c with bound := some new.id }) (fun _ => rfl)]
  exact linksOf_map f (g := Cell.substitute (some ⟨v, new⟩)) (fun _ => ⟨rfl, rfl⟩) n

/-- **The links of a tree whose branches are bound to another context** are the renamed links. -/
theorem linksOf_replaced : ∀ {n : Node}, f.patterns.Nodup → f.Binds p v →
    f.linksOf (f.replaced p v old new (boundTo old) n) = (f.linksOf n).rename v old new.id := by
  induction f with
  | quantified i q body ih =>
    rintro ⟨c, kids⟩ hnd hb
    have hbody : body.Binds p v := fun q' hq' => hb q' (List.mem_cons_of_mem _ hq')
    rw [patterns_quantified, List.nodup_cons] at hnd
    unfold replaced
    by_cases hq : q.pattern = p
    · have hv : v = q.var := ((hb q List.mem_cons_self).mp hq).symm
      have hvars : v ∉ body.vars := hbody.notMem_vars (hq ▸ hnd.1)
      rw [if_pos hq, linksOf, linksOf]
      refine Quantifier.collect_rename fun kid _ => ?_
      simp only [if_pos hv]
      by_cases hbound : boundTo old kid = true
      · rw [if_pos hbound, bound_rebound, staged_rebound, linksOf_rebound, rename_linksOf hvars,
          show kid.cell.bound = some old from of_decide_eq_true hbound, Option.map_some, renameId,
          if_pos rfl]
        exact ⟨rfl, rfl, rfl⟩
      · rw [if_neg hbound, rename_linksOf hvars]
        refine ⟨?_, rfl, rfl⟩
        cases hk : kid.cell.bound with
        | none => rfl
        | some id =>
          have hid : id ≠ old := fun e => hbound (decide_eq_true (hk.trans (congrArg some e)))
          rw [Option.map_some, renameId, if_neg hid]
    · have hv : v ≠ q.var := fun e => hq ((hb q List.mem_cons_self).mpr e.symm)
      rw [if_neg hq, linksOf, linksOf]
      refine Quantifier.collect_rename fun kid _ => ?_
      obtain ⟨truths, h⟩ := replaced_cell body p v old new (boundTo old) kid
      rw [h, ih hnd.2 hbody]
      simp only [if_neg hv, Option.map_id_fun', id_eq, and_self]
  | binary i op left right ihl ihr =>
    rintro ⟨c, kids⟩ hnd hb
    rw [patterns_binary, List.nodup_append] at hnd
    have hl := fun m => ihl (n := m) hnd.1 fun q hq => hb q (List.mem_append_left _ hq)
    have hr := fun m => ihr (n := m) hnd.2.1 fun q hq => hb q (List.mem_append_right _ hq)
    unfold replaced
    rcases kids with _ | ⟨a, _ | ⟨b, _ | ⟨_, _⟩⟩⟩
    · exact (LinkSet.rename_empty v old new.id).symm
    · exact (LinkSet.rename_empty v old new.id).symm
    · obtain ⟨ta, ha⟩ := replaced_cell left p v old new (boundTo old) a
      obtain ⟨tb, hb⟩ := replaced_cell right p v old new (boundTo old) b
      rw [linksOf, linksOf]
      dsimp only [Node.kids_mk]
      rw [hl, hr, ha, hb, Connective.rename_explain]
      rfl
    · exact (LinkSet.rename_empty v old new.id).symm
  | negation i body ih =>
    rintro ⟨c, kids⟩ hnd hb
    unfold replaced
    rcases kids with _ | ⟨a, _ | ⟨_, _⟩⟩
    · exact (LinkSet.rename_empty v old new.id).symm
    · rw [linksOf, linksOf]
      dsimp only [Node.kids_mk]
      rw [ih hnd hb, LinkSet.rename_flipped]
    · exact (LinkSet.rename_empty v old new.id).symm
  | application i a => exact fun _ _ => (LinkSet.rename_empty v old new.id).symm

/-! ## Links that were generated -/

/-- The truth of the node was found, and its links, if it has any, are those told by the tree below,
in which a context is renamed. -/
def Told (v : String) (old b : Nat) (f : Formula) (c : Cell) (kids : List Node) : Prop :=
  f.Judged c kids ∧ ∀ L ∈ c.links, L.rename v old b = f.linksOf (.mk c kids)

theorem Every.told_of_notMem {a b : Nat} (hv : v ∉ f.vars) (h : f.Every (Told v a a) n) :
    f.Every (Told v old b) n := by
  refine h.imp fun g hg m _ hm => ⟨hm.1, fun L hL => ?_⟩
  have hself := hm.2 L hL
  rw [LinkSet.rename_self] at hself
  rw [hself]
  exact rename_linksOf fun hmem => hv (vars_subset hg hmem)

theorem Every.told_rebound {a : Nat} (h : f.Every (Told v a old) n) :
    f.Every (Told v a old) (n.rebound v new) := by
  have hbelow : ∀ {g : Formula} {h : Cell → Cell} {c : Cell} {kids : List Node},
      (∀ c, (h c).staged = c.staged ∧ (h c).bound = c.bound ∧ (h c).links = c.links) →
      g.Told v a old c kids → g.Told v a old (h c) (kids.map (Node.map h)) := by
    rintro g h c kids hh ⟨⟨⟨b, hb⟩, hbound⟩, hlinks⟩
    refine ⟨⟨⟨b, (hh c).1.trans hb⟩, ?_⟩, fun L hL => ?_⟩
    · cases g with
      | quantified i q body =>
        intro kid' hk'
        obtain ⟨kid, hk, rfl⟩ := List.mem_map.mp hk'
        rw [Node.cell_map, (hh _).2.1]
        exact hbound kid hk
      | binary i op left right | negation i body | application i a => exact trivial
    · rw [(hh c).2.2] at hL
      rw [hlinks L hL, ← Node.map_mk, linksOf_map g fun c => ⟨(hh c).1, (hh c).2.1⟩]
  refine Every.onCell (fun hm => ⟨hm.1, fun L hL => ?_⟩) (Every.map ?_)
  · rw [hm.2 L hL]
    exact (linksOf_onCell (h := fun c => { c with bound := some new.id }) (fun _ => rfl) f _).symm
  · exact h.imp fun g _ m _ hm => hbelow (fun _ => ⟨rfl, rfl, rfl⟩) hm

theorem told_links_replaced {a : Nat} (old : Nat) (new : Context) (hnd : f.patterns.Nodup) (hb : f.Binds p v)
    (h : f.Every (Told v a a) n) :
    ∀ L ∈ (f.replaced p v old new (boundTo old) n).cell.links,
      L.rename v old new.id = f.linksOf (f.replaced p v old new (boundTo old) n) := by
  intro L hL
  obtain ⟨truths, hcell⟩ := replaced_cell f p v old new (boundTo old) n
  rw [hcell] at hL
  have hself := h.root.2 L hL
  rw [LinkSet.rename_self] at hself
  rw [linksOf_replaced hnd hb, hself]
  obtain ⟨c, kids⟩ := n
  rfl

theorem told_rebinds {a i : Nat} {q : Quantifier} {body : Formula} {c : Cell} {kids : List Node}
    (hq : q.pattern = p) (hv : v ∉ body.vars) (h : (quantified i q body).Every (Told v a a) (.mk c kids))
    (hroot : ∀ L ∈ ((quantified i q body).replaced p v old new (boundTo old) (.mk c kids)).cell.links,
      L.rename v old new.id =
        (quantified i q body).linksOf ((quantified i q body).replaced p v old new (boundTo old) (.mk c kids))) :
    (quantified i q body).Every (Told v old new.id)
      ((quantified i q body).replaced p v old new (boundTo old) (.mk c kids)) := by
  obtain ⟨⟨⟨⟨t, ht⟩, hbound⟩, -⟩, hkids⟩ := h
  unfold replaced at hroot ⊢
  rw [if_pos hq] at hroot ⊢
  refine ⟨⟨⟨⟨t, ?_⟩, fun kid' hk' => ?_⟩, hroot⟩, fun kid' hk' => ?_⟩
  · split_ifs
    · obtain ⟨truths, hr⟩ := rebindBranch_eq c old new.id
      rw [hr]
      exact ht
    · exact ht
  · obtain ⟨kid, hk, rfl⟩ := List.mem_map.mp hk'
    split_ifs
    · rw [bound_rebound]
      rfl
    · exact hbound kid hk
  · obtain ⟨kid, hk, rfl⟩ := List.mem_map.mp hk'
    split_ifs
    · exact ((hkids kid hk).told_of_notMem hv).told_rebound
    · exact (hkids kid hk).told_of_notMem hv

/-- **Links of a tree** whose branches are bound to another context: renamed, they are those that the
tree tells. -/
theorem told_replaced {a : Nat} : ∀ {n : Node}, f.patterns.Nodup → f.Binds p v →
    f.Every (Told v a a) n →
    f.Every (Told v old new.id) (f.replaced p v old new (boundTo old) n) := by
  induction f with
  | quantified i q body ih =>
    rintro ⟨c, kids⟩ hnd hb h
    have hroot := told_links_replaced old new hnd hb h
    have hbody : body.Binds p v := fun q' hq' => hb q' (List.mem_cons_of_mem _ hq')
    rw [patterns_quantified, List.nodup_cons] at hnd
    by_cases hq : q.pattern = p
    · exact told_rebinds hq (hbody.notMem_vars (hq ▸ hnd.1)) h hroot
    · obtain ⟨⟨⟨⟨t, ht⟩, hbound⟩, -⟩, hkids⟩ := h
      unfold replaced at hroot ⊢
      rw [if_neg hq] at hroot ⊢
      refine ⟨⟨⟨⟨t, ht⟩, fun kid' hk' => ?_⟩, hroot⟩, fun kid' hk' => ?_⟩
      · obtain ⟨kid, hk, rfl⟩ := List.mem_map.mp hk'
        obtain ⟨truths, hr⟩ := replaced_cell body p v old new (boundTo old) kid
        rw [hr]
        exact hbound kid hk
      · obtain ⟨kid, hk, rfl⟩ := List.mem_map.mp hk'
        exact ih hnd.2 hbody (hkids kid hk)
  | binary i op left right ihl ihr =>
    rintro ⟨c, kids⟩ hnd hb h
    have hroot := told_links_replaced old new hnd hb h
    obtain ⟨⟨hj, -⟩, x, y, rfl, hx, hy⟩ := h
    rw [patterns_binary, List.nodup_append] at hnd
    exact ⟨⟨⟨hj.1, trivial⟩, hroot⟩, _, _, rfl,
      ihl hnd.1 (fun q hq => hb q (List.mem_append_left _ hq)) hx,
      ihr hnd.2.1 (fun q hq => hb q (List.mem_append_right _ hq)) hy⟩
  | negation i body ih =>
    rintro ⟨c, kids⟩ hnd hb h
    have hroot := told_links_replaced old new hnd hb h
    obtain ⟨⟨hj, -⟩, x, rfl, hx⟩ := h
    exact ⟨⟨⟨hj.1, trivial⟩, hroot⟩, _, rfl, ih hnd hb hx⟩
  | application i a =>
    rintro ⟨c, kids⟩ hnd hb h
    exact ⟨⟨h.1.1, told_links_replaced old new hnd hb h⟩, h.2⟩

end Formula

/-- The links of the node, if it has any, are those that an explanation of it finds. -/
def Setting.Derives (s : Setting) (was : Nat → Bool) (f : Formula) (c : Cell) (kids : List Node) :
    Prop :=
  ∀ L ∈ c.links, ∃ e, (s.explain was f (.mk c kids)).Yields e ∧ e.links = L

theorem Setting.derives_iff {s : Setting} {was : Nat → Bool} {f : Formula} {n : Node}
    (hs : s.focus = .everything) (hj : f.Every Formula.Judged n) :
    s.Derives was f n.cell n.kids ↔ ∀ L ∈ n.cell.links, L = f.linksOf n := by
  obtain ⟨c, kids⟩ := n
  obtain ⟨e, he, hl, -⟩ := s.explain_scratch was hs hj
  refine forall₂_congr fun L _ => ⟨?_, fun h => ⟨e, he, hl.trans h.symm⟩⟩
  rintro ⟨e', he', rfl⟩
  have hsame := (he'.value 0).symm.trans (he.value 0)
  rw [Except.ok.inj hsame, hl]

/-- **Renaming commutes with the algebra of links**: with unions, products, flipping and bindings, where
the binding added is renamed too if it is the one in question; and with minimal links, if no link binds
the new context. So if the links of a tree are those that explanations from scratch find, then they
still are when the branches bound to one context are bound to another one and the links are renamed. -/
theorem LinkSet.rename_commutes (A B : LinkSet) (v : String) (old new : Nat) :
    (A ∪ B : LinkSet).rename v old new = A.rename v old new ∪ B.rename v old new ∧
      (A.product B).rename v old new = (A.rename v old new).product (B.rename v old new) ∧
      A.flipped.rename v old new = (A.rename v old new).flipped ∧
      (∀ (k : LinkKind) (w : String) (id : Nat), (A.withBinding k w id).rename v old new =
        (A.rename v old new).withBinding k w (if w = v ∧ id = old then new else id)) ∧
      ((∀ l ∈ A, l.bindings[v]? ≠ some new) → ∀ l,
        l ∈ (A.rename v old new).minimal ↔ ∃ l₀ ∈ A.minimal, l₀.rename v old new = l) ∧
      ∀ (s : Setting) (was : Nat → Bool) (f : Formula) (p : String) (c : Context) (t : Tree)
        (n : Node), s.focus = .everything → f.patterns.Nodup → f.Binds p v → c.id = new →
        t.root = some n → f.Every Formula.Judged n → f.Every (s.Derives was) n →
        ∃ n', (Tree.renameLinks { t with
            root := some (f.replaced p v old c (Formula.boundTo old) n) } v old new).root = some n' ∧
          f.Every Formula.Judged n' ∧ f.Every (s.Derives was) n' ∧
          f.linksOf n' = (f.linksOf n).rename v old new := by
  refine ⟨rename_union A B v old new, rename_product A B v old new, rename_flipped A v old new,
    fun k w id => ?_, fun h l => mem_minimal_rename h, ?_⟩
  · rw [rename_withBinding]
    unfold renameId
    by_cases hv : v = w
    · simp only [hv, true_and, if_true]
    · rw [if_neg hv, if_neg fun h => hv h.1.symm]
  · rintro s was f p c t n hs hnd hb rfl ht hj hd
    have htold : f.Every (Formula.Told v old old) n := by
      refine ((hj.trees.and hj).and hd).imp fun g _ m _ hm => ⟨hm.1.2, fun L hL => ?_⟩
      rw [rename_self]
      obtain ⟨mc, mkids⟩ := m
      exact (Setting.derives_iff hs hm.1.1).mp hm.2 L hL
    have hnew : f.Every (Formula.Told v old c.id)
        (f.replaced p v old c (Formula.boundTo old) n) := Formula.told_replaced hnd hb htold
    let rename (x : Cell) : Cell := { x with links := x.links.map (·.rename v old c.id) }
    let n' := (f.replaced p v old c (Formula.boundTo old) n).map rename
    have hlinksOf : ∀ (g : Formula) (m : Node), g.linksOf (m.map rename) = g.linksOf m :=
      fun g => Formula.linksOf_map g fun _ => ⟨rfl, rfl⟩
    have hgenerated : f.Every (fun g x kids => g.Judged x kids ∧
        ∀ L ∈ x.links, L = g.linksOf (.mk x kids)) n' := by
      refine Formula.Every.map (hnew.imp fun g _ m _ hm => ⟨⟨hm.1.1, ?_⟩, fun L hL => ?_⟩)
      · cases g with
        | quantified i q body =>
          intro kid' hk'
          obtain ⟨kid, hk, rfl⟩ := List.mem_map.mp hk'
          rw [Node.cell_map]
          exact hm.1.2 kid hk
        | binary i op left right | negation i body | application i a => exact trivial
      · obtain ⟨L₀, hL₀, rfl⟩ := Option.map_eq_some_iff.mp hL
        rw [hm.2 L₀ hL₀, ← Node.map_mk, hlinksOf]
    have hjudged : f.Every Formula.Judged n' := hgenerated.imp fun _ _ _ _ h => h.1
    refine ⟨n', rfl, hjudged, ?_, ?_⟩
    · exact (hjudged.trees.and hgenerated).imp fun g _ m _ hm =>
        (Setting.derives_iff (n := .mk m.cell m.kids) hs hm.1).mpr hm.2.2
    · exact (hlinksOf f _).trans (Formula.linksOf_replaced hnd hb)

namespace Sample

/-- All visitors are present. -/
def presence : Formula :=
  .quantified 1 { kind := .universal, var := "v", pattern := "visitor" }
    (.application 0 ⟨"present", [("v1", "v")]⟩)

/-- All formulas are affected. -/
def inspection : Setting where
  sentence := { rule := "presence", nodes := [], root := 1, formula := presence }
  facts := {}
  registry := {}
  focus := .everything
  minimalLinks := false

/-- A visitor violates the rule. -/
def absence (id : Nat) : Link :=
  ⟨.violated, (∅ : Bindings).insert "v" id⟩

/-- A visitor, and the same one with a guide. -/
def absences : LinkSet :=
  .ofList [absence 0, ⟨.violated, .ofList [("v", 0), ("w", 2)]⟩] Link.order

/-- The instance over one visitor, who is not present, with its links. -/
def absent : Node :=
  .mk { index := 0, formula := 1, env := ∅, bound := none, truth := .no, staged := .no
        links := some (.ofList [absence 0] Link.order) }
    [.mk { index := 1, formula := 0, env := ∅, bound := some 0, truth := .no, staged := .no
           links := some ∅ } []]

theorem absent_judged : presence.Every Formula.Judged absent :=
  ⟨⟨⟨false, rfl⟩, List.forall_mem_singleton.mpr rfl⟩,
    List.forall_mem_singleton.mpr ⟨⟨⟨false, rfl⟩, trivial⟩, rfl⟩⟩

theorem absent_derives (was : Nat → Bool) : presence.Every (inspection.Derives was) absent := by
  refine ⟨(Setting.derives_iff rfl absent_judged).mpr fun L hL => ?_,
    List.forall_mem_singleton.mpr ⟨(Setting.derives_iff rfl
      (List.forall_mem_singleton.mp absent_judged.2)).mpr fun L hL => ?_, rfl⟩⟩
  · rw [← Option.mem_some.mp hL]
    decide +kernel
  · exact (Option.mem_some.mp hL).symm

end Sample

/-- The visitor makes room for another one. -/
theorem LinkSet.rename_commutes_sample :
    Sample.absences.size = 2 ∧ Sample.absence 1 ∈ (Sample.absences.rename "v" 0 1).minimal ∧
      ∃ n', (Tree.renameLinks { root := some (Sample.presence.replaced "visitor" "v" 0 ⟨1, ∅⟩
          (Formula.boundTo 0) Sample.absent) } "v" 0 1).root = some n' ∧
        Sample.presence.Every (Sample.inspection.Derives fun _ => false) n' ∧
        (Sample.presence.linksOf n').toList = [Sample.absence 1] := by
  obtain ⟨-, -, -, -, hminimal, htree⟩ := rename_commutes Sample.absences ∅ "v" 0 1
  have hunbound : ∀ l ∈ Sample.absences, l.bindings["v"]? ≠ some 1 := by
    have hall : Sample.absences.toList.all (fun l => l.bindings["v"]? ≠ some 1) = true := by
      decide +kernel
    exact fun l hl => of_decide_eq_true (List.all_eq_true.mp hall l (ExtTreeSet.mem_toList.mpr hl))
  have hleast : Sample.absence 0 ∈ Sample.absences.minimal := by decide +kernel
  obtain ⟨n', hroot, -, hderives, hlinks⟩ := htree Sample.inspection (fun _ => false) Sample.presence
    "visitor" ⟨1, ∅⟩ { root := some Sample.absent } Sample.absent rfl (by decide)
    (List.forall_mem_singleton.mpr (iff_of_true rfl rfl)) rfl rfl Sample.absent_judged
    (Sample.absent_derives _)
  refine ⟨by decide +kernel, (hminimal hunbound _).mpr ⟨_, hleast, by decide +kernel⟩, n', hroot,
    hderives, ?_⟩
  rw [hlinks]
  decide +kernel

end RuleMonitor
