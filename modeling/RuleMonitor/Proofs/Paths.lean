import Mathlib.Data.List.Nodup
import RuleMonitor.Proofs.Sentences

/-!
# Paths

A node of a draft may be shared: it stands wherever a path from the root ends at it, and other variables
may be bound on the way to it each time. A path is the list of the positions that it takes among operands.
It leads alike through a draft and through the formula that is read from it, where each node has one path.

* `Draft.shapeOn?`, `Formula.follow?`: the end of a path; **`Formula.ReadFrom.shapeOn?_eq`**: they agree.
* `Formula.occurrences`: the quantifiers with their paths; **`Formula.nodup_map_quantifiers`**: quantifiers
  are told apart if no two paths end at quantifiers that are alike.
* `Formula.Covered`: what nodes depend on is in scope, or bound on the way; `Formula.covered_iff`: one step
  of a path; `Formula.Scoped.covered`.
* `Formula.height_le_of_follow?`: heights on a path.
-/

namespace RuleMonitor

/-! ## Paths in a draft -/

namespace Shape

/-- The variables that a node depends on. -/
def uses : Shape → List String
  | quantified q _ => (q.filter.map Filter.dep).toList
  | application a => a.params.map Prod.snd
  | binary .. | negation _ => []

/-- What a node depends on is what the filter of a quantifier depends on, or what a predicate is applied
to. -/
theorem mem_uses {shape : Shape} {v : String} : v ∈ shape.uses ↔
    (∃ q, shape.quantifier? = some q ∧ ∃ filter ∈ q.filter, filter.dep = v) ∨
      ∃ a, shape = .application a ∧ ∃ p ∈ a.params, p.2 = v := by
  cases shape with
  | quantified q body => simp [uses, quantifier?]
  | application a => simp [uses, quantifier?]
  | binary op left right => simp [uses, quantifier?]
  | negation body => simp [uses, quantifier?]

end Shape

namespace Draft

/-- The node at the end of a path from a node. A path consists of the positions of operands. -/
def shapeOn? (nodes : List Shape) : (index : Nat) → (path : List Nat) → Option Shape
  | index, [] => nodes[index]?
  | index, k :: path =>
    nodes[index]?.bind fun shape => shape.kids[k]?.bind fun kid => shapeOn? nodes kid path

/-- The quantifier at the end of a path. -/
def quantifierOn? (nodes : List Shape) (index : Nat) (path : List Nat) : Option Quantifier :=
  (shapeOn? nodes index path).bind Shape.quantifier?

/-- A quantifier on the way to the end of a path binds a variable. -/
def BoundOn (nodes : List Shape) (index : Nat) (path : List Nat) (var : String) : Prop :=
  ∃ above k rest q, path = above ++ k :: rest ∧ quantifierOn? nodes index above = some q ∧ q.var = var

end Draft

/-! ## Paths in a formula -/

namespace Formula

variable {nodes : List Shape} {f g : Formula} {scope : List String} {path : List Nat} {v : String}

/-- The node of a draft that the formula can be read from. -/
def shape : Formula → Shape
  | quantified _ q body => .quantified q body.index
  | binary _ op left right => .binary op left.index right.index
  | negation _ body => .negation body.index
  | application _ a => .application a

/-- The operands. -/
def kids : Formula → List Formula
  | quantified _ _ body | negation _ body => [body]
  | binary _ _ left right => [left, right]
  | application .. => []

/-- The formula at the end of a path. -/
def follow? : Formula → (path : List Nat) → Option Formula
  | f, [] => some f
  | f, k :: path => f.kids[k]?.bind fun kid => kid.follow? path

/-- The quantifier at the end of a path. -/
def quantifierOn? (f : Formula) (path : List Nat) : Option Quantifier :=
  (f.follow? path).bind quantifier?

/-- The variable that the root binds, if it is a quantifier. -/
def binding (f : Formula) : List String :=
  (f.quantifier?.map (·.var)).toList

/-- A quantifier on the way to the end of a path binds a variable. -/
def BoundOn (f : Formula) (path : List Nat) (v : String) : Prop :=
  ∃ above k rest q, path = above ++ k :: rest ∧ f.quantifierOn? above = some q ∧ q.var = v

/-- What the nodes of a formula depend on is in scope, or bound on the way to them. -/
def Covered (scope : List String) (f : Formula) : Prop :=
  ∀ path g, f.follow? path = some g → ∀ v ∈ g.shape.uses, v ∈ scope ∨ f.BoundOn path v

theorem ReadFrom.shape_eq (h : f.ReadFrom nodes) : nodes[f.index]? = some f.shape := by
  cases f with
  | quantified i q body => exact h.1
  | binary i op left right => exact h.1
  | negation i body => exact h.1
  | application i a => exact h

theorem ReadFrom.kid (h : f.ReadFrom nodes) {kid : Formula} (hk : kid ∈ f.kids) : kid.ReadFrom nodes := by
  cases f with
  | quantified i q body => exact List.mem_singleton.mp hk ▸ h.2
  | binary i op left right =>
    rcases List.mem_pair.mp hk with rfl | rfl
    · exact h.2.1
    · exact h.2.2
  | negation i body => exact List.mem_singleton.mp hk ▸ h.2
  | application i a => exact absurd hk List.not_mem_nil

theorem kids_shape (f : Formula) : f.shape.kids = f.kids.map index := by
  cases f <;> rfl

theorem quantifier?_shape (f : Formula) : f.shape.quantifier? = f.quantifier? := by
  cases f <;> rfl

/-- **Paths lead alike** through a draft and through the formula that is read from it. -/
theorem ReadFrom.shapeOn?_eq (h : f.ReadFrom nodes) (path : List Nat) :
    Draft.shapeOn? nodes f.index path = (f.follow? path).map shape := by
  induction path generalizing f with
  | nil => exact h.shape_eq
  | cons k path ih =>
    rw [Draft.shapeOn?, h.shape_eq, Option.bind_some, kids_shape, List.getElem?_map, follow?]
    cases hk : f.kids[k]? with
    | none => rfl
    | some kid => exact ih (h.kid (List.mem_of_getElem? hk))

theorem ReadFrom.quantifierOn?_eq (h : f.ReadFrom nodes) (path : List Nat) :
    Draft.quantifierOn? nodes f.index path = f.quantifierOn? path := by
  unfold Draft.quantifierOn? quantifierOn?
  rw [h.shapeOn?_eq, Option.bind_map]
  exact congrArg _ (funext quantifier?_shape)

theorem ReadFrom.boundOn_iff (h : f.ReadFrom nodes) :
    Draft.BoundOn nodes f.index path v ↔ f.BoundOn path v := by
  unfold Draft.BoundOn BoundOn
  simp only [h.quantifierOn?_eq]

/-! ## Quantifiers on paths -/

/-- The quantifiers in pre-order, with the paths that end at them. -/
def occurrences : Formula → List (List Nat × Quantifier)
  | quantified _ q body => ([], q) :: body.occurrences.map (Prod.map (0 :: ·) id)
  | binary _ _ left right =>
    left.occurrences.map (Prod.map (0 :: ·) id) ++ right.occurrences.map (Prod.map (1 :: ·) id)
  | negation _ body => body.occurrences.map (Prod.map (0 :: ·) id)
  | application .. => []

theorem quantifierOn?_nil (f : Formula) : f.quantifierOn? [] = f.quantifier? := rfl

theorem quantifierOn?_cons (f : Formula) (k : Nat) (path : List Nat) :
    f.quantifierOn? (k :: path) = f.kids[k]?.bind fun kid => kid.quantifierOn? path := by
  unfold quantifierOn?
  rw [follow?]
  cases f.kids[k]? with
  | none => rfl
  | some kid => rfl

theorem map_snd_prefixed (k : Nat) (l : List (List Nat × Quantifier)) :
    (l.map (Prod.map (k :: ·) id)).map Prod.snd = l.map Prod.snd := by
  rw [List.map_map]
  rfl

theorem map_fst_prefixed (k : Nat) (l : List (List Nat × Quantifier)) :
    (l.map (Prod.map (k :: ·) id)).map Prod.fst = (l.map Prod.fst).map (k :: ·) := by
  rw [List.map_map, List.map_map]
  rfl

theorem nil_notMem_prefixed {k : Nat} {l : List (List Nat × Quantifier)} {q : Quantifier} :
    ([], q) ∉ l.map (Prod.map (k :: ·) id) := fun h => by
  obtain ⟨e, -, he⟩ := List.mem_map.mp h
  exact nomatch (Prod.mk.inj he).1

theorem cons_mem_prefixed {k j : Nat} {l : List (List Nat × Quantifier)} {q : Quantifier} :
    (j :: path, q) ∈ l.map (Prod.map (k :: ·) id) ↔ j = k ∧ (path, q) ∈ l := by
  rw [List.mem_map]
  constructor
  · rintro ⟨⟨path', q'⟩, h, he⟩
    obtain ⟨hpath, rfl⟩ := Prod.mk.inj he
    obtain ⟨rfl, rfl⟩ := List.cons.inj hpath
    exact ⟨rfl, h⟩
  · rintro ⟨rfl, h⟩
    exact ⟨_, h, rfl⟩

theorem map_snd_occurrences (f : Formula) : f.occurrences.map Prod.snd = f.quantifiers := by
  induction f with
  | quantified i q body ih => rw [occurrences, List.map_cons, map_snd_prefixed, ih, quantifiers]
  | binary i op left right ihl ihr =>
    rw [occurrences, List.map_append, map_snd_prefixed, map_snd_prefixed, ihl, ihr, quantifiers]
  | negation i body ih => rw [occurrences, map_snd_prefixed, ih, quantifiers]
  | application i a => rfl

theorem mem_occurrences {q : Quantifier} :
    (path, q) ∈ f.occurrences ↔ f.quantifierOn? path = some q := by
  induction f generalizing path with
  | quantified i q₀ body ih =>
    rw [occurrences, List.mem_cons]
    cases path with
    | nil =>
      rw [or_iff_left nil_notMem_prefixed, quantifierOn?_nil, Prod.mk.injEq, quantifier?, Option.some.injEq]
      exact ⟨fun h => h.2.symm, fun h => ⟨rfl, h.symm⟩⟩
    | cons k path =>
      rw [or_iff_right nofun, cons_mem_prefixed, ih, quantifierOn?_cons]
      cases k with
      | zero => exact and_iff_right rfl
      | succ k => exact iff_of_false nofun nofun
  | binary i op left right ihl ihr =>
    rw [occurrences, List.mem_append]
    cases path with
    | nil => exact iff_of_false (fun h => h.elim nil_notMem_prefixed nil_notMem_prefixed) nofun
    | cons k path =>
      rw [cons_mem_prefixed, cons_mem_prefixed, ihl, ihr, quantifierOn?_cons]
      match k with
      | 0 => exact (or_iff_left nofun).trans (and_iff_right rfl)
      | 1 => exact (or_iff_right nofun).trans (and_iff_right rfl)
      | k + 2 => exact iff_of_false (by rintro (h | h) <;> exact nomatch h.1) nofun
  | negation i body ih =>
    rw [occurrences]
    cases path with
    | nil => exact iff_of_false nil_notMem_prefixed nofun
    | cons k path =>
      rw [cons_mem_prefixed, ih, quantifierOn?_cons]
      cases k with
      | zero => exact and_iff_right rfl
      | succ k => exact iff_of_false nofun nofun
  | application i a => cases path <;> exact iff_of_false nofun nofun

theorem nodup_occurrences (f : Formula) : (f.occurrences.map Prod.fst).Nodup := by
  have hprefixed : ∀ (k : Nat) {l : List (List Nat × Quantifier)}, (l.map Prod.fst).Nodup →
      ((l.map (Prod.map (k :: ·) id)).map Prod.fst).Nodup := fun k l h => by
    rw [map_fst_prefixed]
    exact h.map fun _ _ he => (List.cons.inj he).2
  induction f with
  | quantified i q body ih =>
    rw [occurrences, List.map_cons, List.nodup_cons]
    refine ⟨fun h => ?_, hprefixed 0 ih⟩
    rw [map_fst_prefixed, List.mem_map] at h
    obtain ⟨_, -, he⟩ := h
    cases he
  | binary i op left right ihl ihr =>
    rw [occurrences, List.map_append, List.nodup_append]
    refine ⟨hprefixed 0 ihl, hprefixed 1 ihr, fun path hl path' hr he => ?_⟩
    rw [map_fst_prefixed, List.mem_map] at hl hr
    obtain ⟨_, -, rfl⟩ := hl
    obtain ⟨_, -, rfl⟩ := hr
    cases he
  | negation i body ih => exact hprefixed 0 ih
  | application i a => exact .nil

/-- **Quantifiers are told apart** by something if no two paths end at quantifiers that have it in
common. -/
theorem nodup_map_quantifiers {α : Type} (g : Quantifier → α) : (f.quantifiers.map g).Nodup ↔
    ∀ {path path' : List Nat} {q q' : Quantifier}, f.quantifierOn? path = some q →
      f.quantifierOn? path' = some q' → g q = g q' → path = path' := by
  rw [← map_snd_occurrences, List.map_map, List.nodup_map_iff_inj_on f.nodup_occurrences.of_map]
  constructor
  · intro h path path' q q' hq hq' he
    exact (Prod.mk.inj (h _ (mem_occurrences.mpr hq) _ (mem_occurrences.mpr hq') he)).1
  · rintro h ⟨path, q⟩ hq ⟨path', q'⟩ hq' he
    rw [mem_occurrences] at hq hq'
    obtain rfl := h hq hq' he
    rw [Option.some.inj (hq.symm.trans hq')]

/-! ## What nodes depend on -/

theorem not_boundOn_nil : ¬ f.BoundOn [] v := by
  rintro ⟨above, k, rest, q, he, -⟩
  exact absurd he.symm (List.append_ne_nil_of_right_ne_nil _ (List.cons_ne_nil _ _))

/-- What is bound on the way is bound at the root, or behind the first step. -/
theorem boundOn_cons {k : Nat} {kid : Formula} (hk : f.kids[k]? = some kid) :
    f.BoundOn (k :: path) v ↔ v ∈ f.binding ∨ kid.BoundOn path v := by
  constructor
  · rintro ⟨above, j, rest, q, he, hq, rfl⟩
    cases above with
    | nil =>
      rw [quantifierOn?_nil] at hq
      exact .inl (by rw [binding, hq]; exact List.mem_singleton_self _)
    | cons i above =>
      obtain ⟨rfl, rfl⟩ := List.cons.inj he
      rw [quantifierOn?_cons, hk] at hq
      exact .inr ⟨above, j, rest, q, rfl, hq, rfl⟩
  · rintro (hv | ⟨above, j, rest, q, rfl, hq, rfl⟩)
    · obtain ⟨q, hq, rfl⟩ := Option.map_eq_some_iff.mp (Option.mem_toList.mp hv)
      exact ⟨[], k, path, q, rfl, hq, rfl⟩
    · exact ⟨k :: above, j, rest, q, rfl, by rw [quantifierOn?_cons, hk]; exact hq, rfl⟩

theorem covered_iff : f.Covered scope ↔ (∀ v ∈ f.shape.uses, v ∈ scope) ∧
    ∀ kid ∈ f.kids, kid.Covered (f.binding ++ scope) := by
  constructor
  · refine fun h => ⟨fun v hv => (h [] f rfl v hv).resolve_right not_boundOn_nil, fun kid hkid => ?_⟩
    obtain ⟨k, hk⟩ := List.mem_iff_getElem?.mp hkid
    intro path g hg v hv
    have hfollow : f.follow? (k :: path) = some g := by rw [follow?, hk]; exact hg
    rcases h (k :: path) g hfollow v hv with hv | hv
    · exact .inl (List.mem_append_right _ hv)
    · exact ((boundOn_cons hk).mp hv).imp_left (List.mem_append_left _)
  · rintro ⟨huses, hkids⟩ path g hg v hv
    cases path with
    | nil =>
      cases hg
      exact .inl (huses v hv)
    | cons k path =>
      obtain ⟨kid, hk, hg⟩ := Option.bind_eq_some_iff.mp hg
      rcases hkids kid (List.mem_of_getElem? hk) path g hg v hv with hv | hv
      · rcases List.mem_append.mp hv with hv | hv
        · exact .inr ((boundOn_cons hk).mpr (.inl hv))
        · exact .inl hv
      · exact .inr ((boundOn_cons hk).mpr (.inr hv))

/-- A formula is covered if its variables are in scope where they occur. -/
theorem Scoped.covered (h : f.Scoped scope) : f.Covered scope := by
  induction f generalizing scope with
  | quantified i q body ih =>
    refine covered_iff.mpr ⟨fun v hv => ?_, fun kid hk => ?_⟩
    · obtain ⟨filter, hf, rfl⟩ := Option.map_eq_some_iff.mp (Option.mem_toList.mp hv)
      exact h.2.1 filter hf
    · obtain rfl := List.mem_singleton.mp hk
      exact ih h.2.2
  | binary i op left right ihl ihr =>
    refine covered_iff.mpr ⟨nofun, fun kid hk => ?_⟩
    rcases List.mem_pair.mp hk with rfl | rfl
    · exact ihl h.1
    · exact ihr h.2
  | negation i body ih =>
    refine covered_iff.mpr ⟨nofun, fun kid hk => ?_⟩
    obtain rfl := List.mem_singleton.mp hk
    exact ih h
  | application i a =>
    refine covered_iff.mpr ⟨fun v hv => ?_, nofun⟩
    obtain ⟨p, hp, rfl⟩ := List.mem_map.mp hv
    exact h p hp

/-! ## Heights -/

theorem height_lt_of_kid {kid : Formula} (h : kid ∈ f.kids) : kid.height < f.height := by
  cases f with
  | quantified i q body | negation i body => exact List.mem_singleton.mp h ▸ Nat.lt_succ_self _
  | binary i op left right =>
    rcases List.mem_pair.mp h with rfl | rfl
    · exact Nat.lt_succ_of_le (Nat.le_max_left _ _)
    · exact Nat.lt_succ_of_le (Nat.le_max_right _ _)
  | application i a => cases h

theorem height_le_of_follow? {path : List Nat} {g : Formula} (h : f.follow? path = some g) :
    g.height ≤ f.height := by
  induction path generalizing f with
  | nil =>
    cases h
    exact Nat.le_refl _
  | cons k path ih =>
    obtain ⟨kid, hk, h⟩ := Option.bind_eq_some_iff.mp h
    exact Nat.le_trans (ih h) (Nat.le_of_lt (height_lt_of_kid (List.mem_of_getElem? hk)))

theorem follow?_append (path rest : List Nat) :
    f.follow? (path ++ rest) = (f.follow? path).bind fun g => g.follow? rest := by
  induction path generalizing f with
  | nil => rfl
  | cons k path ih =>
    rw [List.cons_append, follow?, follow?]
    cases f.kids[k]? with
    | none => rfl
    | some kid => exact ih

theorem exists_of_quantifierOn? {path : List Nat} {q : Quantifier} (h : f.quantifierOn? path = some q) :
    ∃ i body, f.follow? path = some (.quantified i q body) := by
  obtain ⟨g, hg, hq⟩ := Option.bind_eq_some_iff.mp h
  cases g with
  | quantified i q' body =>
    cases hq
    exact ⟨i, body, hg⟩
  | binary | negation | application => cases hq

theorem binders_kid {kid : Formula} (h : kid ∈ f.kids) (positive : Bool) :
    ∃ positive', ∀ b ∈ kid.binders positive', b ∈ f.binders positive := by
  cases f with
  | quantified i q body =>
    obtain rfl := List.mem_singleton.mp h
    exact ⟨positive, fun b hb => List.mem_cons_of_mem _ hb⟩
  | binary i op left right =>
    rcases List.mem_pair.mp h with rfl | rfl
    · exact ⟨_, fun b hb => List.mem_append_left _ hb⟩
    · exact ⟨_, fun b hb => List.mem_append_right _ hb⟩
  | negation i body =>
    obtain rfl := List.mem_singleton.mp h
    exact ⟨!positive, fun b hb => hb⟩
  | application i a => cases h

theorem exists_mem_binders {path : List Nat} {i : Nat} {q : Quantifier} {body : Formula}
    (h : f.follow? path = some (.quantified i q body)) :
    ∀ positive, ∃ b ∈ f.binders positive, b.quantifier = q ∧ b.depth = body.height := by
  induction path generalizing f with
  | nil =>
    cases h
    exact fun positive => ⟨_, List.mem_cons_self, rfl, rfl⟩
  | cons k path ih =>
    intro positive
    obtain ⟨kid, hk, h⟩ := Option.bind_eq_some_iff.mp h
    obtain ⟨positive', hkid⟩ := binders_kid (List.mem_of_getElem? hk) positive
    obtain ⟨b, hb, hb'⟩ := ih h positive'
    exact ⟨b, hkid b hb, hb'⟩

end Formula

end RuleMonitor
