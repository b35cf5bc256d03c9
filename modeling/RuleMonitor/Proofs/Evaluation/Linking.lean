import RuleMonitor.Proofs.Evaluation.Reworking

/-!
# Nodes that have links

An explanation leaves links at every node that it visits. With minimal links these are the nodes that
are trusted afterwards. Otherwise it passes over nodes that have links already: those below a node
whose links it takes over, and the old branches of a quantifier whose links it goes on with. So if all
nodes had links before the edits of a cycle, all nodes have links after its explanation.

* `Node.Linked`: all nodes have links; `Node.LinkedAt`: the node in a slot has.
* `Formula.Primed`: where a node has links, what is passed over with it has; **`Formula.Reworked.primed`**:
  so it is after the edits.
* `Eval.Ensures`: whatever an evaluation answers has a property.
* **`Setting.explain_leaves`**: where an explanation leaves links.
-/

namespace RuleMonitor

namespace Node

/-- All nodes have links. -/
def Linked (n : Node) : Prop :=
  ∀ c ∈ n.cells, c.links.isSome = true

/-- The node in a slot has links. -/
def LinkedAt (n : Node) (i : Nat) : Prop :=
  ∃ c ∈ n.cells, c.index = i ∧ c.links.isSome = true

variable {n m : Node} {c : Cell} {kids : List Node} {i : Nat}

theorem linked_mk : (mk c kids).Linked ↔ c.links.isSome = true ∧ ∀ kid ∈ kids, kid.Linked := by
  unfold Linked
  rw [cells_mk, List.forall_mem_cons, List.forall_mem_flatMap]

theorem LinkedAt.of_kid (hk : m ∈ kids) (h : m.LinkedAt i) : (mk c kids).LinkedAt i := by
  obtain ⟨c', hc', h⟩ := h
  exact ⟨c', mem_cells_of_mem_kids (n := mk c kids) hk hc', h⟩

theorem LinkedAt.isSome (h : n.LinkedAt i) (hd : n.indices.Nodup) (hc : c ∈ n.cells)
    (hi : c.index = i) : c.links.isSome = true := by
  obtain ⟨c', hc', hi', hl⟩ := h
  rwa [List.inj_on_of_nodup_map hd hc hc' (hi.trans hi'.symm)]

end Node

/-! ## What is passed over -/

namespace Formula

/-- If the node has links, then so have its branches, but for the fresh ones of a formula that the cycle
affects. -/
def Primed (focus : Focus) (f : Formula) (c : Cell) (kids : List Node) : Prop :=
  c.links.isSome = true → ∀ kid ∈ (if focus.affects f then (Node.mk c kids).oldKids else kids),
    kid.cell.links.isSome = true

variable {s : Setting} {focus : Focus} {p : Formula → Cell → List Node → Prop} {f body : Formula}
  {n n' : Node}

theorem Every.primed_of_base (e : n.map Cell.base = n'.map Cell.base)
    (h : f.Every (Primed focus) n) : f.Every (Primed focus) n' := by
  refine Every.of_map ?_ e h
  intro f c c' kids kids' hc hk hprimed hl
  have hlinks : c.links = c'.links := by simpa using congrArg Cell.links hc
  have hfresh : c.fresh = c'.fresh := by simpa using congrArg Cell.fresh hc
  have hkl : kids.map (fun kid => kid.cell.links) = kids'.map fun kid => kid.cell.links := by
    have := congrArg (List.map Cell.links) hk
    rwa [List.map_map, List.map_map] at this
  have hlen : kids.length = kids'.length := by simpa using congrArg List.length hkl
  have hpassed :
      (if focus.affects f then (Node.mk c kids).oldKids else kids).map (fun kid => kid.cell.links) =
      (if focus.affects f then (Node.mk c' kids').oldKids else kids').map fun kid =>
        kid.cell.links := by
    split_ifs
    · unfold Node.oldKids
      rw [List.map_take, List.map_take, Node.kids_mk, Node.kids_mk, Node.cell_mk, Node.cell_mk, hkl,
        hlen, hfresh]
    · exact hkl
  intro kid' hk'
  obtain ⟨kid, hk, he⟩ := List.mem_map.mp (hpassed.symm ▸ List.mem_map_of_mem hk')
  rw [← he]
  exact hprimed (hlinks ▸ hl) kid hk

theorem Every.primed_of_blank (h : f.Every p n) (hn : n.Blank) : f.Every (Primed focus) n := by
  refine h.imp fun g _ m hm _ hl => ?_
  have hc := hn m.cell (Node.cell_mem_cells_of_mem hm)
  rw [show m.cell.links = none from congrArg Cell.links hc.symm] at hl
  cases hl

/-- **After the edits**, what is passed over with a node that has links has links, if all nodes had
links before. -/
theorem Reworked.primed (h : f.Every p n) (hl : n.Linked) (hn : f.Reworked s n n') :
    f.Every (Primed s.focus) n' := by
  have hkids : f.Every (fun _ _ kids => ∀ kid ∈ kids, kid.cell.links.isSome = true) n := by
    refine h.imp fun _ _ m hm _ kid hk => ?_
    exact hl _ (Node.cells_subset_of_mem hm (Node.mem_cells_of_mem_kids hk kid.cell_mem_cells))
  refine hn.reshaped.every ?_ (fun hp hb => hp.primed_of_blank hb) ?_ hkids
  · refine fun ha hg => hg.imp fun g' hg' m _ hk _ kid hkid => hk kid ?_
    rwa [Focus.affects_of_subset (patterns_subset hg') ha, if_neg Bool.false_ne_true] at hkid
  · rintro g ⟨c, kids⟩ m' ha hk hm - kid' hk'
    rw [if_pos ha] at hk'
    have hlast : ∀ {g : Formula} {a b : Node}, g.Reshaped s a b → b.cell.links = a.cell.links := by
      intro g a b hab
      obtain ⟨fresh, pruned, truths, e⟩ := hab.lasts
      rw [e]
    cases g with
    | quantified i q body =>
      rw [Reshaped, if_pos ha] at hm
      obtain ⟨kept, new, truths, hkept, -, -, rfl⟩ := hm
      rw [Node.cell_mk, Node.kids_mk, oldKids_append rfl] at hk'
      obtain ⟨kid, hkid, hR⟩ := Lists.exists_of_forall₂ hkept hk'
      rw [hlast hR]
      exact hk kid (Delta.mem_of_mem_staying hkid)
    | binary i op left right =>
      rw [Reshaped, if_pos ha] at hm
      obtain ⟨a, b, a', b', rfl, hRa, hRb, rfl⟩ := hm
      rcases List.mem_pair.mp (Node.mem_kids_of_mem_oldKids hk') with rfl | rfl
      · rw [hlast hRa]
        exact hk a (by simp)
      · rw [hlast hRb]
        exact hk b (by simp)
    | negation i body =>
      rw [Reshaped, if_pos ha] at hm
      obtain ⟨a, a', rfl, hRa, rfl⟩ := hm
      obtain rfl := List.mem_singleton.mp (Node.mem_kids_of_mem_oldKids hk')
      rw [hlast hRa]
      exact hk a (by simp)
    | application i a =>
      cases hm
      exact hk kid' (Node.mem_kids_of_mem_oldKids hk')

/-- All nodes have links where the root has, if the cycle does not affect the formula. -/
theorem Every.linked_of_primed (ha : focus.affects f = false) : ∀ {n : Node},
    f.Every (Primed focus) n → n.cell.links.isSome = true → n.Linked := by
  have hkids : ∀ {g : Formula} {c : Cell} {kids : List Node}, focus.affects g = false →
      g.Primed focus c kids → c.links.isSome = true → ∀ kid ∈ kids, kid.cell.links.isSome = true := by
    intro g c kids ha hp hl
    have := hp hl
    rwa [ha, if_neg Bool.false_ne_true] at this
  have hsub : ∀ {g g' : Formula}, focus.affects g = false → g' ∈ g.subformulas →
      focus.affects g' = false := fun ha hg => Focus.affects_of_subset (patterns_subset hg) ha
  induction f with
  | quantified i q body ih =>
    rintro ⟨c, kids⟩ h hl
    have hb := hsub (g := .quantified i q body) ha (List.mem_cons_of_mem _ (mem_subformulas_self _))
    exact Node.linked_mk.mpr ⟨hl, fun kid hk => ih hb (h.2 kid hk) (hkids ha h.1 hl kid hk)⟩
  | binary i op left right ihl ihr =>
    rintro ⟨c, kids⟩ ⟨hp, a, b, rfl, hpa, hpb⟩ hl
    have hroots := hkids ha hp hl
    refine Node.linked_mk.mpr ⟨hl, fun kid hk => ?_⟩
    rcases List.mem_pair.mp hk with rfl | rfl
    · exact ihl (hsub ha (List.mem_cons_of_mem _ (List.mem_append_left _ (mem_subformulas_self _))))
        hpa (hroots _ hk)
    · exact ihr (hsub ha (List.mem_cons_of_mem _ (List.mem_append_right _ (mem_subformulas_self _))))
        hpb (hroots _ hk)
  | negation i body ih =>
    rintro ⟨c, kids⟩ ⟨hp, a, rfl, hpa⟩ hl
    refine Node.linked_mk.mpr ⟨hl, fun kid hk => ?_⟩
    obtain rfl := List.mem_singleton.mp hk
    exact ih (hsub ha (List.mem_cons_of_mem _ (mem_subformulas_self _))) hpa (hkids ha hp hl _ hk)
  | application i a =>
    rintro ⟨c, kids⟩ ⟨-, rfl⟩ hl
    exact Node.linked_mk.mpr ⟨hl, List.forall_mem_nil _⟩

end Formula

/-! ## What evaluation answers -/

namespace Eval

variable {α β : Type} {x : Eval α} {Q Q' : α → Prop}

/-- Whatever the evaluation answers has a property. -/
def Ensures (x : Eval α) (Q : α → Prop) : Prop :=
  ∀ k a k', x k = .ok a k' → Q a

theorem Ensures.of_yields {a : α} (h : x.Ensures Q) (hy : x.Yields a) : Q a := by
  obtain ⟨k, hk⟩ := hy 0
  exact h 0 a k hk

theorem Ensures.imp (h : x.Ensures Q) (hQ : ∀ a, Q a → Q' a) : x.Ensures Q' :=
  fun k a k' hok => hQ a (h k a k' hok)

theorem ensures_pure {a : α} (h : Q a) : Ensures (pure a) Q := fun k b k' hok => by
  cases hok
  exact h

theorem ensures_throw (e : Failure) : Ensures (throw e : Eval α) Q := fun k a k' hok => by
  cases hok

theorem Ensures.bind {f : α → Eval β} {R : β → Prop} (hx : x.Ensures Q)
    (hf : ∀ a, Q a → (f a).Ensures R) : (x >>= f).Ensures R := fun k b k' hok => by
  obtain ⟨a, k₁, h₁, h₂⟩ := Routine.bind_eq_ok.mp hok
  exact hf a (hx k a k₁ h₁) k₁ b k' h₂

theorem ensures_ofExcept (x : Except Failure α) : Ensures (Routine.ofExcept x) (x = .ok ·) :=
  fun _ _ _ hok => (Routine.ofExcept_eq_ok hok).1

/-- A choice between two computations, with what follows it in either branch. -/
theorem Ensures.ite_bind {p : Prop} [Decidable p] {y : Eval α} {f : α → Eval β} {R : β → Prop}
    (h : Ensures (if p then x else y) Q) (hf : ∀ a, Q a → (f a).Ensures R) :
    Ensures (if p then x >>= f else y >>= f) R := by
  rw [← apply_ite (· >>= f)]
  exact h.bind hf

/-! ### Many tasks -/

section Tasks

variable {f : α → Eval β} {R : α → β → Prop} {as : List α} (h : ∀ a ∈ as, (f a).Ensures (R a))

include h

theorem ensures_inSequence : (inSequence f as).Ensures (List.Forall₂ R as) := by
  induction as with
  | nil => exact ensures_pure .nil
  | cons a as ih =>
    rw [List.forall_mem_cons] at h
    exact h.1.bind fun b hb => (ih h.2).bind fun bs hbs => ensures_pure (.cons hb hbs)

theorem ensures_runAll :
    (runAll f as).Ensures (List.Forall₂ (fun a r => ∀ b, r = .ok b → R a b) as) := by
  induction as with
  | nil => exact ensures_pure .nil
  | cons a as ih =>
    rw [List.forall_mem_cons] at h
    have hattempt : Ensures (Routine.attempt (f a)) fun r => ∀ b, r = .ok b → R a b := by
      rintro k r k' hok b rfl
      rcases Routine.exists_of_attempt hok with ⟨b', e, hok⟩ | ⟨e, he, -⟩
      · cases e
        exact h.1 k b k' hok
      · cases he
    exact hattempt.bind fun r hr => (ih h.2).bind fun rs hrs => ensures_pure (.cons hr hrs)

end Tasks

theorem firstError_isSome (rs : List (Except Failure α)) (e : Error) :
    (firstError rs (some e)).isSome = true := by
  induction rs generalizing e with
  | nil => rfl
  | cons r rs ih =>
    cases r with
    | ok a => exact ih e
    | error e' => exact ih _

/-- The results of many tasks are joined only if all of them succeeded. -/
theorem eq_map_ok_of_joinResults {rs : List (Except Failure α)} {as : List α}
    (h : joinResults rs = .ok as) : rs = as.map Except.ok := by
  have hall : firstError rs none = none → rs = (values rs).map Except.ok := by
    clear h
    intro h
    induction rs with
    | nil => rfl
    | cons r rs ih =>
      cases r with
      | ok a => exact congrArg (Except.ok a :: ·) (ih h)
      | error e => exact absurd ((firstError_isSome rs _).symm.trans (congrArg Option.isSome h)) nofun
  unfold joinResults at h
  split at h
  · cases h
  · cases h
    exact hall ‹_›

/-- **Many tasks** answer what each of them answers, handed out or not. -/
theorem ensures_forEach (concurrent : Bool) {f : α → Eval β} {R : α → β → Prop} {as : List α}
    (h : ∀ a ∈ as, (f a).Ensures (R a)) : (forEach concurrent f as).Ensures (List.Forall₂ R as) := by
  have hfan : (fanOut f as).Ensures (List.Forall₂ R as) := by
    unfold fanOut
    split_ifs
    · exact ensures_inSequence h
    · refine (ensures_runAll h).bind fun rs hrs => (ensures_ofExcept _).imp fun bs hbs => ?_
      rw [eq_map_ok_of_joinResults hbs, List.forall₂_map_right_iff] at hrs
      exact hrs.imp fun _ _ hr => hr _ rfl
  unfold forEach
  split_ifs
  · have hcount : Ensures (modify (· + 1) : Eval PUnit) fun _ => True := fun _ _ _ _ => trivial
    exact hcount.bind fun _ _ => hfan
  · exact ensures_inSequence h

end Eval

/-! ## Where links are left -/

/-- The nodes visited have links afterwards; if links are not kept minimal and what is passed over has
links, all nodes have. -/
structure Setting.Leaves (s : Setting) (f : Formula) (n : Node) (e : Explained) : Prop where
  visited : ∀ i ∈ e.visited, e.node.LinkedAt i
  linked : s.minimalLinks = false → f.Every (Formula.Primed s.focus) n → e.node.Linked

namespace Setting

variable {s : Setting} {f body : Formula} {c : Cell} {kids : List Node} {n : Node} {was : Nat → Bool}

/-- With minimal links, the node itself is visited. -/
def LeavesRoot (s : Setting) (f : Formula) (n : Node) (e : Explained) : Prop :=
  s.Leaves f n e ∧ (s.minimalLinks = true → n.index ∈ e.visited)

theorem leaves_takenOver {L : LinkSet} {trusted : Bool}
    (hL : (if !s.focus.affects f && trusted then n.cell.links else none) = some L) :
    s.LeavesRoot f n (s.takenOver n L) := by
  split_ifs at hL with ha
  rw [Bool.and_eq_true, Bool.not_eq_true'] at ha
  have hsome : n.cell.links.isSome = true := Option.isSome_of_eq_some hL
  refine ⟨⟨fun i hi => ?_, fun _ hp => hp.linked_of_primed ha.1 hsome⟩, fun hm => ?_⟩
  · unfold takenOver at hi
    split_ifs at hi
    · exact ⟨n.cell, n.cell_mem_cells, (List.mem_singleton.mp hi).symm, hsome⟩
    · cases hi
  · unfold takenOver
    rw [if_pos hm]
    exact List.mem_singleton_self _

/-- Either the links of a node are taken over, or they are found in some other way. -/
theorem ensures_takeOver {trusted : Bool} {x : Eval Explained} {Q : Explained → Prop}
    (hover : ∀ {L}, (if !s.focus.affects f && trusted then n.cell.links else none) = some L →
      Q (s.takenOver n L)) (h : x.Ensures Q) :
    Eval.Ensures
      (match if !s.focus.affects f && trusted then n.cell.links else none with
        | some links => return s.takenOver n links
        | none => x) Q := by
  cases hL : (if !s.focus.affects f && trusted then n.cell.links else none) with
  | some L => exact Eval.ensures_pure (hover hL)
  | none => exact h

/-- The links of a node are found, after some branches were passed over and others explained. -/
theorem leaves_explained (L : LinkSet) (before : List Node) (es : List Explained)
    (hvisited : ∀ e ∈ es, ∀ i ∈ e.visited, e.node.LinkedAt i)
    (hlinked : s.minimalLinks = false → f.Every (Formula.Primed s.focus) (.mk c kids) →
      (∀ kid ∈ before, kid.Linked) ∧ ∀ e ∈ es, e.node.Linked) :
    s.LeavesRoot f (.mk c kids)
      (s.explained c (before ++ es.map Explained.node) L (es.flatMap Explained.visited)) := by
  have hbelow : ∀ i ∈ es.flatMap Explained.visited,
      (Node.mk { c with links := some L } (before ++ es.map Explained.node)).LinkedAt i := by
    intro i hi
    obtain ⟨e, he, hi⟩ := List.mem_flatMap.mp hi
    exact (hvisited e he i hi).of_kid (List.mem_append_right _ (List.mem_map_of_mem he))
  refine ⟨⟨fun i hi => ?_, fun hm hp => ?_⟩, fun hm => ?_⟩
  · unfold explained at hi
    split_ifs at hi
    · rcases List.mem_cons.mp hi with rfl | hi
      · exact ⟨_, Node.cell_mem_cells _, rfl, rfl⟩
      · exact hbelow i hi
    · exact hbelow i hi
  · obtain ⟨hb, he⟩ := hlinked hm hp
    refine Node.linked_mk.mpr ⟨rfl, List.forall_mem_append.mpr ⟨hb, ?_⟩⟩
    exact List.forall_mem_map.mpr he
  · unfold explained
    rw [if_pos hm]
    exact List.mem_cons_self

/-- A branch that is visited if need be, and always if links are not kept minimal. -/
theorem ensures_visit {kid : Node} (w : Bool)
    (ih : (s.explain was f kid).Ensures (s.LeavesRoot f kid)) :
    Eval.Ensures (if w || !s.minimalLinks then s.explain was f kid else pure ⟨∅, kid, []⟩)
      (s.Leaves f kid) := by
  split_ifs with hw
  · exact ih.imp fun e he => he.1
  · refine Eval.ensures_pure ⟨List.forall_mem_nil _, fun hm => ?_⟩
    rw [hm, Bool.not_false, Bool.or_true] at hw
    exact absurd rfl hw

theorem map_snd_of_judge {q : Quantifier} {look : List Node} : ∀ {judged : List (Bool × Node)},
    judge q look = .ok judged → judged.map Prod.snd = look := by
  induction look with
  | nil =>
    intro judged h
    cases h
    rfl
  | cons kid look ih =>
    intro judged h
    unfold judge at h ih
    rw [List.mapM_cons] at h
    cases hk : kid.cell.stagedTruth with
    | error e =>
      rw [hk] at h
      cases h
    | ok b =>
      rw [hk] at h
      cases hrest : look.mapM fun kid => do
        return ((← kid.cell.stagedTruth) == q.kind.witnessTruth, kid) with
      | error e =>
        rw [hrest] at h
        cases h
      | ok rest =>
        rw [hrest] at h
        cases h
        exact congrArg (kid :: ·) (ih hrest)

/-- The branches of a quantifier, some passed over and the others looked at. -/
theorem ensures_branches {i : Nat} {q : Quantifier} (links₀ : LinkSet) (before look : List Node)
    (hands : List (Bool × Node) → Bool) (hlook : ∀ kid ∈ look, kid ∈ kids)
    (hbefore : s.minimalLinks = false →
      (Formula.quantified i q body).Every (Formula.Primed s.focus) (.mk c kids) →
      ∀ kid ∈ before, kid.Linked)
    (ih : ∀ kid, (s.explain was body kid).Ensures (s.LeavesRoot body kid)) :
    Eval.Ensures (do
      let judged ← Routine.ofExcept (judge q look)
      let results ← Eval.forEach (hands judged) (fun x : Bool × Node =>
        if x.1 || !s.minimalLinks then do return (x.1, ← s.explain was body x.2)
        else return (x.1, ⟨∅, x.2, []⟩)) judged
      let all ← Routine.ofExcept (collectLinks q links₀ results)
      return s.explained c (before ++ results.map fun r => r.2.node) all
        (results.flatMap fun r => r.2.visited))
      (s.LeavesRoot (.quantified i q body) (.mk c kids)) := by
  refine (Eval.ensures_ofExcept _).bind fun judged hj => ?_
  have hjudged := map_snd_of_judge hj
  refine (Eval.ensures_forEach (R := fun x y => s.Leaves body x.2 y.2) _ fun x _ => ?_).bind
    fun results hres => ?_
  · have hvisit := ensures_visit x.1 (ih x.2)
    split_ifs at hvisit ⊢
    · exact hvisit.bind fun e he => Eval.ensures_pure he
    · exact Eval.ensures_pure (hvisit.of_yields (Eval.yields_pure _))
  refine (Eval.ensures_ofExcept _).bind fun L _ => Eval.ensures_pure ?_
  have hleaves : ∀ e ∈ results.map Prod.snd, ∃ kid ∈ kids, s.Leaves body kid e := by
    intro e he
    obtain ⟨y, hy, rfl⟩ := List.mem_map.mp he
    obtain ⟨x, hx, h⟩ := Lists.exists_of_forall₂ hres hy
    exact ⟨x.2, hlook _ (hjudged ▸ List.mem_map_of_mem hx), h⟩
  have hnode : s.LeavesRoot (.quantified i q body) (.mk c kids) _ :=
    leaves_explained L before (results.map Prod.snd)
      (fun e he => by
        obtain ⟨kid, -, h⟩ := hleaves e he
        exact h.visited)
      (fun hm hp => ⟨hbefore hm hp, fun e he => by
        obtain ⟨kid, hk, h⟩ := hleaves e he
        exact h.linked hm (hp.2 kid hk)⟩)
  rwa [List.map_map, List.flatMap_map] at hnode

theorem linked_of_keptLinks {i : Nat} {q : Quantifier} {upToDate : Bool} {L : LinkSet}
    (hkept : (if s.focus.affects (.quantified i q body) then s.keptLinks body c upToDate else none) = some L)
    (hp : (Formula.quantified i q body).Every (Formula.Primed s.focus) (.mk c kids)) :
    ∀ kid ∈ (Node.mk c kids).oldKids, kid.Linked := by
  intro kid hk
  split_ifs at hkept with ha
  unfold keptLinks at hkept
  split_ifs at hkept with hkeeps
  rw [Bool.and_eq_true, Bool.and_eq_true, Bool.not_eq_true', Bool.not_eq_true'] at hkeeps
  have hroots := hp.1 (Option.isSome_of_eq_some hkept)
  rw [if_pos ha] at hroots
  exact (hp.2 kid (Node.mem_kids_of_mem_oldKids hk)).linked_of_primed hkeeps.1.1 (hroots kid hk)

/-- **An explanation leaves links** at the nodes visited, and at all nodes if links are not kept
minimal. -/
theorem explain_leaves : ∀ n : Node, (s.explain was f n).Ensures (s.LeavesRoot f n) := by
  induction f with
  | quantified i q body ih =>
    rintro ⟨c, kids⟩
    unfold explain
    refine ensures_takeOver (n := .mk c kids) leaves_takenOver ?_
    cases hkept : (if s.focus.affects (.quantified i q body) then
      s.keptLinks body c (!s.minimalLinks || was c.index) else none) with
    | none => exact ensures_branches ∅ [] kids _ (fun _ h => h) (fun _ _ => List.forall_mem_nil _) ih
    | some links₀ =>
      exact ensures_branches links₀ (Node.mk c kids).oldKids (Node.mk c kids).freshKids _
        (fun _ h => Node.mem_kids_of_mem_freshKids h) (fun _ hp => linked_of_keptLinks hkept hp) ih
  | binary i op left right ihl ihr =>
    rintro ⟨c, kids⟩
    unfold explain
    refine ensures_takeOver (n := .mk c kids) leaves_takenOver ?_
    rcases kids with _ | ⟨a, _ | ⟨b, _ | ⟨_, _⟩⟩⟩
    case cons.cons.nil =>
      refine (Eval.ensures_ofExcept _).bind fun ta _ => (Eval.ensures_ofExcept _).bind fun tb _ =>
        (Eval.ensures_ofExcept _).bind fun truth _ => ?_
      refine (ensures_visit _ (ihl a)).ite_bind fun ea hea =>
        (ensures_visit _ (ihr b)).ite_bind fun eb heb => Eval.ensures_pure ?_
      have hlinked : s.minimalLinks = false →
          (Formula.binary i op left right).Every (Formula.Primed s.focus) (.mk c [a, b]) →
          (∀ kid ∈ ([] : List Node), kid.Linked) ∧ ∀ e ∈ [ea, eb], e.node.Linked := by
        intro hm hp
        obtain ⟨-, hpa, hpb⟩ := Formula.every_binary.mp hp
        exact ⟨List.forall_mem_nil _, by simpa using ⟨hea.linked hm hpa, heb.linked hm hpb⟩⟩
      have hnode := leaves_explained (op.explain truth ta tb ea.links eb.links) [] [ea, eb]
        (by simpa using ⟨hea.visited, heb.visited⟩) hlinked
      simpa using hnode
    all_goals exact Eval.ensures_throw _
  | negation i body ih =>
    rintro ⟨c, kids⟩
    unfold explain
    refine ensures_takeOver (n := .mk c kids) leaves_takenOver ?_
    rcases kids with _ | ⟨a, _ | ⟨_, _⟩⟩
    case cons.nil =>
      refine (ih a).bind fun ea hea => Eval.ensures_pure ?_
      have hlinked : s.minimalLinks = false →
          (Formula.negation i body).Every (Formula.Primed s.focus) (.mk c [a]) →
          (∀ kid ∈ ([] : List Node), kid.Linked) ∧ ∀ e ∈ [ea], e.node.Linked := fun hm hp =>
        ⟨List.forall_mem_nil _,
          List.forall_mem_singleton.mpr (hea.1.linked hm (Formula.every_negation.mp hp).2)⟩
      have hnode := leaves_explained ea.links.flipped [] [ea]
        (List.forall_mem_singleton.mpr hea.1.visited) hlinked
      simpa using hnode
    all_goals exact Eval.ensures_throw _
  | application i a =>
    rintro ⟨c, kids⟩
    unfold explain
    refine ensures_takeOver (n := .mk c kids) leaves_takenOver ?_
    have hlinked : s.minimalLinks = false →
        (Formula.application i a).Every (Formula.Primed s.focus) (.mk c kids) →
        (∀ kid ∈ kids, kid.Linked) ∧ ∀ e ∈ ([] : List Explained), e.node.Linked := by
      rintro - ⟨-, rfl⟩
      exact ⟨List.forall_mem_nil _, List.forall_mem_nil _⟩
    have hnode := leaves_explained ∅ kids [] (List.forall_mem_nil _) hlinked
    exact Eval.ensures_pure (by simpa using hnode)

end Setting

end RuleMonitor
