import RuleMonitor.Proofs.Evaluation.Explanation
import RuleMonitor.Proofs.Facts.Deltas
import RuleMonitor.Proofs.Instances.Surviving

/-!
# Nodes after the edits of a cycle

A quantifier that the cycle affects keeps the branches of contexts that were neither deleted nor
updated, in their order, and gains branches for the new contexts. What else a node has does not depend
on its edits, except for the truths that it notes of its branches.

* `Formula.Reworked`: what edits make of an instance whose truths were found; `Formula.Reshaped`: what
  they make of any instance.
* `Formula.dropped`: the slots of the branches that go.
* **`Formula.Reshaped.survivor`**: a node that stays is reshaped like the whole.
-/

namespace RuleMonitor

open Std (ExtTreeMap ExtTreeSet)

/-- The branches of contexts that were neither deleted nor updated. -/
def Delta.staying (d : Delta) (kids : List Node) : List Node :=
  kids.filter fun kid => !d.drops (kid.cell.bound.getD 0)

theorem Delta.mem_of_mem_staying {d : Delta} {kids : List Node} {kid : Node}
    (h : kid ∈ d.staying kids) : kid ∈ kids :=
  List.mem_of_mem_filter h

/-- The node is the instance of the body of a quantifier for a context, just put into slots. -/
def Quantifier.Grafted (q : Quantifier) (P : Pools) (body : Formula) (env : Env) (x : Context)
    (n : Node) : Prop :=
  ∃ slots, n = ((body.fragment P (q.bind env x) (some x.id)).place slots).1

namespace Formula

/-! ## What edits make of a node -/

/-- What the edits of a cycle make of a node. -/
def Reworked (s : Setting) : Formula → Node → Node → Prop
  | f@(quantified _ q body), n@(.mk c kids), n' =>
    if s.focus.affects f then
      ∃ kept new,
        List.Forall₂ (Reworked s body) ((s.facts.delta q.pattern).staying kids) kept ∧
        List.Forall₂ (q.Grafted s.facts.pools body c.env)
          ((Setting.newContexts (s.facts.delta q.pattern)).filter fun x => q.admits c.env x) new ∧
        n' = .mk { c with
          fresh := new.length
          pruned := decide (((s.facts.delta q.pattern).staying kids).length < kids.length)
          branchTruths := Node.stagedTruths ((s.facts.delta q.pattern).staying kids) } (kept ++ new)
    else n' = n
  | f@(binary _ _ left right), n@(.mk c kids), n' =>
    if s.focus.affects f then
      ∃ a b a' b', kids = [a, b] ∧ Reworked s left a a' ∧ Reworked s right b b' ∧
        n' = .mk c [a', b']
    else n' = n
  | f@(negation _ body), n@(.mk c kids), n' =>
    if s.focus.affects f then ∃ a a', kids = [a] ∧ Reworked s body a a' ∧ n' = .mk c [a']
    else n' = n
  | application .., n, n' => n' = n

/-- What the edits of a cycle make of a node, whatever it notes of its branches. -/
def Reshaped (s : Setting) : Formula → Node → Node → Prop
  | f@(quantified _ q body), n@(.mk c kids), n' =>
    if s.focus.affects f then
      ∃ kept new truths,
        List.Forall₂ (Reshaped s body) ((s.facts.delta q.pattern).staying kids) kept ∧
        List.Forall₂ (q.Grafted s.facts.pools body c.env)
          ((Setting.newContexts (s.facts.delta q.pattern)).filter fun x => q.admits c.env x) new ∧
        (c.branchTruths = Node.stagedTruths kids →
          truths = Node.stagedTruths ((s.facts.delta q.pattern).staying kids)) ∧
        n' = .mk { c with
          fresh := new.length
          pruned := decide (((s.facts.delta q.pattern).staying kids).length < kids.length)
          branchTruths := truths } (kept ++ new)
    else n' = n
  | f@(binary _ _ left right), n@(.mk c kids), n' =>
    if s.focus.affects f then
      ∃ a b a' b', kids = [a, b] ∧ Reshaped s left a a' ∧ Reshaped s right b b' ∧
        n' = .mk c [a', b']
    else n' = n
  | f@(negation _ body), n@(.mk c kids), n' =>
    if s.focus.affects f then ∃ a a', kids = [a] ∧ Reshaped s body a a' ∧ n' = .mk c [a']
    else n' = n
  | application .., n, n' => n' = n

variable {s : Setting} {f body : Formula} {n n' m : Node} {r : Registry} {P : Pools}

theorem reshaped_iff_of_unaffected (h : s.focus.affects f = false) : f.Reshaped s n n' ↔ n' = n := by
  obtain ⟨c, kids⟩ := n
  cases f with
  | quantified i q body | binary i op left right | negation i body =>
    rw [Reshaped, h, if_neg Bool.false_ne_true]
  | application i a => rfl

theorem Reworked.reshaped : ∀ {n n' : Node}, f.Reworked s n n' → f.Reshaped s n n' := by
  induction f with
  | quantified i q body ih =>
    rintro ⟨c, kids⟩ n' h
    rw [Reworked] at h
    rw [Reshaped]
    split_ifs at h ⊢
    · obtain ⟨kept, new, hkept, hnew, rfl⟩ := h
      exact ⟨kept, new, _, hkept.imp fun _ _ => ih, hnew, fun _ => rfl, rfl⟩
    · exact h
  | binary i op left right ihl ihr =>
    rintro ⟨c, kids⟩ n' h
    rw [Reworked] at h
    rw [Reshaped]
    split_ifs at h ⊢
    · obtain ⟨a, b, a', b', rfl, ha, hb, rfl⟩ := h
      exact ⟨a, b, a', b', rfl, ihl ha, ihr hb, rfl⟩
    · exact h
  | negation i body ih =>
    rintro ⟨c, kids⟩ n' h
    rw [Reworked] at h
    rw [Reshaped]
    split_ifs at h ⊢
    · obtain ⟨a, a', rfl, ha, rfl⟩ := h
      exact ⟨a, a', rfl, ih ha, rfl⟩
    · exact h
  | application i a => exact id

theorem Reshaped.reworked : ∀ {n n' : Node}, f.Every (Found r P) n → f.Reshaped s n n' →
    f.Reworked s n n' := by
  induction f with
  | quantified i q body ih =>
    rintro ⟨c, kids⟩ n' hf h
    rw [Reshaped] at h
    rw [Reworked]
    split_ifs at h ⊢
    · obtain ⟨kept, new, truths, hkept, hnew, htruths, rfl⟩ := h
      refine ⟨kept, new, ?_, hnew, by rw [htruths hf.1.2.2]⟩
      rw [List.forall₂_iff_zip] at hkept ⊢
      refine ⟨hkept.1, fun hm => ih (hf.2 _ ?_) (hkept.2 hm)⟩
      exact Delta.mem_of_mem_staying (List.of_mem_zip hm).1
    · exact h
  | binary i op left right ihl ihr =>
    rintro ⟨c, kids⟩ n' hf h
    rw [Reshaped] at h
    rw [Reworked]
    split_ifs at h ⊢
    · obtain ⟨a, b, a', b', rfl, ha, hb, rfl⟩ := h
      obtain ⟨-, hfa, hfb⟩ := every_binary.mp hf
      exact ⟨a, b, a', b', rfl, ihl hfa ha, ihr hfb hb, rfl⟩
    · exact h
  | negation i body ih =>
    rintro ⟨c, kids⟩ n' hf h
    rw [Reshaped] at h
    rw [Reworked]
    split_ifs at h ⊢
    · obtain ⟨a, a', rfl, ha, rfl⟩ := h
      obtain ⟨-, hfa⟩ := every_negation.mp hf
      exact ⟨a, a', rfl, ih hfa ha, rfl⟩
    · exact h
  | application i a => exact fun _ h => h

theorem Reshaped.lasts (h : f.Reshaped s n n') : n.cell.Lasts n'.cell := by
  obtain ⟨c, kids⟩ := n
  by_cases ha : s.focus.affects f
  · cases f with
    | quantified i q body =>
      rw [Reshaped, if_pos ha] at h
      obtain ⟨kept, new, truths, -, -, -, rfl⟩ := h
      exact ⟨_, _, _, rfl⟩
    | binary i op left right =>
      rw [Reshaped, if_pos ha] at h
      obtain ⟨a, b, a', b', -, -, -, rfl⟩ := h
      exact .refl c
    | negation i body =>
      rw [Reshaped, if_pos ha] at h
      obtain ⟨a, a', -, -, rfl⟩ := h
      exact .refl c
    | application i a =>
      rw [h]
      exact .refl c
  · rw [reshaped_iff_of_unaffected (by simpa using ha)] at h
    rw [h]
    exact .refl c

theorem Reshaped.place_eq (h : f.Reshaped s n n') : n'.place = n.place := by
  obtain ⟨fresh, pruned, truths, hc⟩ := h.lasts
  rw [Node.place, Node.place, hc]

/-! ## The slots of the branches that go -/

/-- The slots of the branches of contexts that were deleted or updated, below a node. -/
def dropped (s : Setting) : Formula → Node → List Nat
  | f@(quantified _ q body), .mk _ kids =>
    if s.focus.affects f then
      kids.flatMap fun kid =>
        if (s.facts.delta q.pattern).drops (kid.cell.bound.getD 0) then kid.indices
        else dropped s body kid
    else []
  | f@(binary _ _ left right), .mk _ kids =>
    if s.focus.affects f then
      (kids.take 1).flatMap (dropped s left) ++ (kids.drop 1).flatMap (dropped s right)
    else []
  | f@(negation _ body), .mk _ kids =>
    if s.focus.affects f then kids.flatMap (dropped s body) else []
  | application .., _ => []

theorem dropped_of_unaffected (h : s.focus.affects f = false) (n : Node) : f.dropped s n = [] := by
  obtain ⟨c, kids⟩ := n
  cases f with
  | quantified i q body | binary i op left right | negation i body =>
    rw [dropped, h, if_neg Bool.false_ne_true]
  | application i a => rfl

theorem dropped_sublist : ∀ n : Node, (f.dropped s n).Sublist (n.kids.flatMap Node.indices) := by
  have all {f : Formula} (kids : List Node)
      (h : ∀ n : Node, (f.dropped s n).Sublist (n.kids.flatMap Node.indices)) :
      (kids.flatMap (f.dropped s)).Sublist (kids.flatMap Node.indices) := by
    refine Lists.flatMap_sublist fun kid _ => (h kid).trans ?_
    obtain ⟨c, kids⟩ := kid
    rw [Node.indices_mk]
    exact List.sublist_cons_self _ _
  induction f with
  | quantified j q body ih =>
    rintro ⟨c, kids⟩
    rw [dropped]
    split_ifs
    · refine Lists.flatMap_sublist fun kid _ => ?_
      split_ifs
      · exact .refl _
      · have := all [kid] ih
        simpa using this
    · exact List.nil_sublist _
  | binary j op left right ihl ihr =>
    rintro ⟨c, kids⟩
    rw [dropped]
    split_ifs
    · have h := (all (kids.take 1) ihl).append (all (kids.drop 1) ihr)
      rwa [← List.flatMap_append, List.take_append_drop] at h
    · exact List.nil_sublist _
  | negation j body ih =>
    rintro ⟨c, kids⟩
    rw [dropped]
    split_ifs
    · exact all kids ih
    · exact List.nil_sublist _
  | application j a => exact fun n => List.nil_sublist _

theorem exists_of_mem_dropped {i : Nat} (h : i ∈ f.dropped s n) : ∃ kid ∈ n.kids, i ∈ kid.indices :=
  List.mem_flatMap.mp ((dropped_sublist n).subset h)

theorem mem_indices_of_mem_dropped {i : Nat} (h : i ∈ f.dropped s n) : i ∈ n.indices := by
  obtain ⟨kid, hk, hi⟩ := exists_of_mem_dropped h
  exact Node.mem_indices_of_mem_kids hk hi

theorem nodup_dropped (hd : n.indices.Nodup) : (f.dropped s n).Nodup := by
  refine (dropped_sublist n).nodup ?_
  obtain ⟨c, kids⟩ := n
  rw [Node.indices_mk, List.nodup_cons] at hd
  exact hd.2

theorem index_notMem_dropped (hd : n.indices.Nodup) : n.index ∉ f.dropped s n := by
  intro h
  obtain ⟨kid, hk, hi⟩ := exists_of_mem_dropped h
  exact Node.index_notMem_kid hd hk hi

section Kid

variable {c : Cell} {kids : List Node} {kid : Node} {i j : Nat} {q : Quantifier}

theorem mem_dropped_branch (hd : (Node.mk c kids).indices.Nodup)
    (ha : s.focus.affects (quantified j q body)) (hk : kid ∈ kids) (hi : i ∈ kid.indices) :
    i ∈ (quantified j q body).dropped s (.mk c kids) ↔
      (s.facts.delta q.pattern).drops (kid.cell.bound.getD 0) = true ∨ i ∈ body.dropped s kid := by
  rw [dropped, if_pos ha, List.mem_flatMap]
  constructor
  · rintro ⟨k, hkk, hik⟩
    have hmem : i ∈ k.indices := by
      split_ifs at hik
      · exact hik
      · exact mem_indices_of_mem_dropped hik
    obtain rfl := Node.eq_of_mem_indices hd hkk hk hmem hi
    split_ifs at hik with hdrop
    · exact .inl hdrop
    · exact .inr hik
  · intro h
    refine ⟨kid, hk, ?_⟩
    split_ifs with hdrop
    · exact hi
    · exact h.resolve_left hdrop

/-- A branch of a quantifier stays unless its context was deleted or updated. -/
theorem index_mem_dropped_iff (hd : (Node.mk c kids).indices.Nodup)
    (ha : s.focus.affects (quantified j q body)) (hk : kid ∈ kids) :
    kid.index ∈ (quantified j q body).dropped s (.mk c kids) ↔
      (s.facts.delta q.pattern).drops (kid.cell.bound.getD 0) = true := by
  rw [mem_dropped_branch hd ha hk kid.index_mem_indices]
  exact or_iff_left (index_notMem_dropped (Node.nodup_indices_kid hd hk))

theorem dropped_binary {left right : Formula} {op : Connective} (c : Cell) (a b : Node)
    (ha : s.focus.affects (binary j op left right)) :
    (binary j op left right).dropped s (.mk c [a, b]) = left.dropped s a ++ right.dropped s b := by
  rw [dropped, if_pos ha]
  simp

theorem dropped_negation (c : Cell) (a : Node) (ha : s.focus.affects (negation j body)) :
    (negation j body).dropped s (.mk c [a]) = body.dropped s a := by
  rw [dropped, if_pos ha]
  simp

theorem mem_dropped_left {left right : Formula} {op : Connective} {a b : Node}
    (hd : (Node.mk c [a, b]).indices.Nodup) (ha : s.focus.affects (binary j op left right))
    (hi : i ∈ a.indices) :
    i ∈ (binary j op left right).dropped s (.mk c [a, b]) ↔ i ∈ left.dropped s a := by
  rw [dropped_binary c a b ha, List.mem_append]
  refine or_iff_left fun h => ?_
  exact Node.disjoint_pair hd hi (mem_indices_of_mem_dropped h)

theorem mem_dropped_right {left right : Formula} {op : Connective} {a b : Node}
    (hd : (Node.mk c [a, b]).indices.Nodup) (ha : s.focus.affects (binary j op left right))
    (hi : i ∈ b.indices) :
    i ∈ (binary j op left right).dropped s (.mk c [a, b]) ↔ i ∈ right.dropped s b := by
  rw [dropped_binary c a b ha, List.mem_append]
  refine or_iff_right fun h => ?_
  exact Node.disjoint_pair hd (mem_indices_of_mem_dropped h) hi

end Kid

/-! ## Nodes that stay -/

variable {p : Formula → Cell → List Node → Prop}

/-- A node below, with the formula that it stands for, is reshaped like the whole. -/
def SurvivesIn (s : Setting) (p : Formula → Cell → List Node → Prop) (f : Formula) (n n' m : Node) :
    Prop :=
  ∃ g ∈ f.subformulas, ∃ m' ∈ n'.subtrees, g.Every p m ∧ g.Reshaped s m m' ∧
    ∀ i ∈ m.indices, i ∈ f.dropped s n ↔ i ∈ g.dropped s m

theorem survivesIn_self (hp : f.Every p n) (h : f.Reshaped s n n') : f.SurvivesIn s p n n' n :=
  ⟨f, mem_subformulas_self f, n', n'.mem_subtrees_self, hp, h, fun _ _ => .rfl⟩

theorem survivesIn_of_unaffected (ha : s.focus.affects f = false) (hp : f.Every p n)
    (hm : m ∈ n.subtrees) : f.SurvivesIn s p n n m := by
  obtain ⟨g, hg, hgm⟩ := hp.trees.exists_of_mem m hm
  have hga := Focus.affects_of_subset (patterns_subset hg) ha
  refine ⟨g, hg, m, hm, ?_, (reshaped_iff_of_unaffected hga).mpr rfl, fun i _ => ?_⟩
  · obtain ⟨c, kids⟩ := m
    exact hgm
  · rw [dropped_of_unaffected ha, dropped_of_unaffected hga]

theorem SurvivesIn.up {g : Formula} {kid kid' : Node} (h : g.SurvivesIn s p kid kid' m)
    (hg : g.subformulas ⊆ f.subformulas) (hk : kid' ∈ n'.kids)
    (hi : ∀ i ∈ m.indices, i ∈ f.dropped s n ↔ i ∈ g.dropped s kid) : f.SurvivesIn s p n n' m := by
  obtain ⟨g', hg', m', hm', hp, hR, hiff⟩ := h
  exact ⟨g', hg hg', m', Node.mem_subtrees_of_mem_kids hk hm', hp, hR,
    fun i him => (hi i him).trans (hiff i him)⟩

/-- The node itself is reshaped, and nothing below it is if it is not affected. -/
theorem Reshaped.survivesIn (h : f.Reshaped s n n') (hp : f.Every p n) (hm : m ∈ n.subtrees)
    (hkids : s.focus.affects f = true → ∀ kid ∈ n.kids, m ∈ kid.subtrees → f.SurvivesIn s p n n' m) :
    f.SurvivesIn s p n n' m := by
  by_cases ha : s.focus.affects f
  · have hself := survivesIn_self hp h
    obtain ⟨c, kids⟩ := n
    rw [Node.subtrees_mk, List.mem_cons, List.mem_flatMap] at hm
    rcases hm with rfl | ⟨kid, hk, hm⟩
    · exact hself
    · exact hkids ha kid hk hm
  · have ha := eq_false_of_ne_true ha
    rw [(reshaped_iff_of_unaffected ha).mp h]
    exact survivesIn_of_unaffected ha hp hm

/-- **A node that stays** is reshaped like the whole. -/
theorem Reshaped.survivor : ∀ {n n' : Node}, n.indices.Nodup → f.Every p n → f.Reshaped s n n' →
    ∀ m ∈ n.subtrees, m.index ∉ f.dropped s n → f.SurvivesIn s p n n' m := by
  induction f with
  | quantified j q body ih =>
    rintro ⟨c, kids⟩ n' hd hp h m hm hi
    refine h.survivesIn hp hm fun ha kid hk hkm => ?_
    rw [Reshaped, if_pos ha] at h
    obtain ⟨kept, new, truths, hkept, -, -, rfl⟩ := h
    rw [mem_dropped_branch hd ha hk (Node.index_mem_of_mem hkm), not_or] at hi
    have hstay : kid ∈ (s.facts.delta q.pattern).staying kids := by
      rw [Delta.staying, List.mem_filter]
      exact ⟨hk, by simpa using hi.1⟩
    obtain ⟨kid', hk', hR⟩ := Lists.exists_of_forall₂ hkept.flip hstay
    refine (ih (Node.nodup_indices_kid hd hk) (hp.2 kid hk) hR m hkm hi.2).up
      (fun g hg => List.mem_cons_of_mem _ hg) (List.mem_append_left _ hk') fun i him => ?_
    rw [mem_dropped_branch hd ha hk (Node.indices_subset_of_mem hkm him)]
    exact or_iff_right hi.1
  | binary j op left right ihl ihr =>
    rintro ⟨c, kids⟩ n' hd hp h m hm hi
    refine h.survivesIn hp hm fun ha kid hk hkm => ?_
    rw [Reshaped, if_pos ha] at h
    obtain ⟨a, b, a', b', rfl, hRa, hRb, rfl⟩ := h
    obtain ⟨-, hpa, hpb⟩ := every_binary.mp hp
    have hmi := Node.index_mem_of_mem hkm
    have hsub := Node.indices_subset_of_mem hkm
    rcases List.mem_pair.mp hk with rfl | rfl
    · rw [mem_dropped_left hd ha hmi] at hi
      exact (ihl (Node.nodup_indices_kid hd hk) hpa hRa m hkm hi).up
        (fun g hg => List.mem_cons_of_mem _ (List.mem_append_left _ hg)) (by simp)
        fun i him => mem_dropped_left hd ha (hsub him)
    · rw [mem_dropped_right hd ha hmi] at hi
      exact (ihr (Node.nodup_indices_kid hd hk) hpb hRb m hkm hi).up
        (fun g hg => List.mem_cons_of_mem _ (List.mem_append_right _ hg)) (by simp)
        fun i him => mem_dropped_right hd ha (hsub him)
  | negation j body ih =>
    rintro ⟨c, kids⟩ n' hd hp h m hm hi
    refine h.survivesIn hp hm fun ha kid hk hkm => ?_
    rw [Reshaped, if_pos ha] at h
    obtain ⟨a, a', rfl, hRa, rfl⟩ := h
    obtain ⟨-, hpa⟩ := every_negation.mp hp
    obtain rfl := List.mem_singleton.mp hk
    have heq := dropped_negation c kid ha
    rw [heq] at hi
    exact (ih (Node.nodup_indices_kid hd hk) hpa hRa m hkm hi).up
      (fun g hg => List.mem_cons_of_mem _ hg) (by simp) fun i _ => by rw [heq]
  | application j a =>
    rintro ⟨c, kids⟩ n' hd hp h m hm hi
    refine h.survivesIn hp hm fun _ kid hk _ => ?_
    rw [hp.2] at hk
    cases hk

end Formula

end RuleMonitor
