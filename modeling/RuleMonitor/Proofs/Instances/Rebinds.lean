import Mathlib.Data.List.Flatten
import RuleMonitor.Proofs.Evaluation.Rebinding
import RuleMonitor.Proofs.Instances.Edits

/-!
# Branches rebound one after the other

A branch is rebound where it stands, wherever that is in the tree, and its quantifier is told. Rebinding
the branches of a list one by one makes the tree in which all of them are rebound.

* `Node.lineage?_within`: the lineage of a node below a branch.
* `Node.Rebinds`: what rebinding a branch makes of the tree above it.
* **`Formula.rebinds_replaced`**: one more branch rebound.
-/

namespace RuleMonitor

/-- The cell without its place and the truths of its branches. -/
def Cell.core (c : Cell) : Cell :=
  { c with env := ∅, bound := none, branchTruths := ∅ }

/-! ## Lineages -/

namespace Node

variable {b : Nat} {c : Cell} {l r : List Node} {n : Node} {way : List Nat}

theorem lineageAll?_eq (b : Nat) (above : List Nat) (kids : List Node) :
    lineageAll? b above kids = kids.findSome? (lineage? b above) := by
  induction kids with
  | nil => rfl
  | cons kid kids ih =>
    rw [lineageAll?, ih, List.findSome?_cons]
    cases lineage? b above kid <;> rfl

theorem lineage?_mk (b : Nat) (above : List Nat) (c : Cell) (kids : List Node) :
    (mk c kids).lineage? b above = if c.index = b then some (b :: above)
      else kids.findSome? (lineage? b (c.index :: above)) := by
  rw [lineage?, lineageAll?_eq]

theorem lineage?_eq_none (n : Node) : ∀ above : List Nat, b ∉ n.indices →
    n.lineage? b above = none := by
  induction n using induct with
  | mk c kids ih =>
    intro above hb
    rw [indices_mk, List.mem_cons, not_or, List.mem_flatMap] at hb
    rw [lineage?_mk, if_neg fun e => hb.1 e.symm, List.findSome?_eq_none_iff]
    exact fun kid hk => ih kid hk _ fun h => hb.2 ⟨kid, hk, h⟩

theorem lineage?_append (n : Node) : ∀ above above' : List Nat,
    n.lineage? b (above ++ above') = (n.lineage? b above).map (· ++ above') := by
  induction n using induct with
  | mk c kids ih =>
    intro above above'
    rw [lineage?_mk, lineage?_mk]
    split_ifs with hc
    · rfl
    · induction kids with
      | nil => rfl
      | cons kid kids ihk =>
        have hkid := ih kid List.mem_cons_self (c.index :: above) above'
        have hkids := ihk fun k hk => ih k (List.mem_cons_of_mem _ hk)
        rw [List.findSome?_cons, List.findSome?_cons, hkids, ← List.cons_append, hkid]
        cases kid.lineage? b (c.index :: above) <;> rfl

theorem lineage?_within (hl : ∀ k ∈ l, b ∉ k.indices) (hc : c.index ≠ b)
    (hn : n.lineage? b [] = some way) :
    (mk c (l ++ n :: r)).lineage? b [] = some (way ++ [c.index]) := by
  have hnone : l.findSome? (lineage? b [c.index]) = none :=
    List.findSome?_eq_none_iff.mpr fun k hk => lineage?_eq_none k _ (hl k hk)
  have hway := lineage?_append (b := b) n [] [c.index]
  rw [List.nil_append, hn] at hway
  rw [lineage?_mk, if_neg hc, List.findSome?_append, hnone, List.findSome?_cons, hway]
  rfl

/-! ## A branch -/

theorem index_rebound (v : String) (new : Context) (n : Node) : (n.rebound v new).index = n.index := by
  obtain ⟨c, kids⟩ := n
  rw [rebound, map_mk]
  rfl

theorem map_core_rebound (v : String) (new : Context) (n : Node) :
    (n.rebound v new).map Cell.core = n.map Cell.core := by
  have hroot : (n.rebound v new).map Cell.core =
      (n.map (Cell.substitute (some ⟨v, new⟩))).map Cell.core := by
    obtain ⟨c, kids⟩ := n
    rw [rebound, map_mk]
    rfl
  rw [hroot, map_map]
  rfl

/-- The branch in a slot, which is bound to a context, is rebound, and the node above it records that
in its truths. -/
def Rebinds (v : String) (new : Context) (old b : Nat) (n n' : Node) : Prop :=
  ∀ t : Tree, t.root = some n → ∃ above m t₁, n.lineage? b [] = some (b :: above) ∧
    t.atLineage? (b :: above) = some m ∧ m.cell.bound = some old ∧
    t.update? (b :: above) (rebound v new) = some t₁ ∧
    t₁.update? above (onCell fun c => c.rebindBranch old new.id) = some { t with root := some n' }

variable {v : String} {new : Context} {old : Nat} {n' : Node}

/-- **A branch is rebound** in a tree. -/
theorem Rebinds.rebind_ok {t : Tree} (h : n.Rebinds v new old b n') (ht : t.root = some n) :
    Tree.rebind b v new t = .ok ⟨⟩ { t with root := some n' } := by
  obtain ⟨above, m, t₁, hl, hm, hbound, hu, hu'⟩ := h t ht
  have hlineage : Tree.lineage b t = .ok (b :: above) t := by
    unfold Tree.lineage
    rw [Routine.get_bind, ht, Option.bind_some, hl]
    rfl
  have hchange : Tree.changeAt (b :: above) (rebound v new) t = .ok ⟨⟩ t₁ :=
    Tree.changeAt_ok.mpr hu
  unfold Tree.rebind
  rw [Routine.bind_ok hlineage, Routine.get_bind, hm, Option.bind_some, hbound]
  refine (Routine.bind_ok hchange).trans ?_
  change EStateM.Result.ok _ (t₁.update above _) = _
  unfold Tree.update
  rw [hu']
  rfl

theorem rebinds_branch {kid : Node} (hl : ∀ k ∈ l, kid.index ∉ k.indices) (hc : c.index ≠ kid.index)
    (hbound : kid.cell.bound = some old) :
    (mk c (l ++ kid :: r)).Rebinds v new old kid.index
      (mk (c.rebindBranch old new.id) (l ++ kid.rebound v new :: r)) := by
  intro t ht
  have hne : ∀ k ∈ l, k.index ≠ kid.index := fun k hk e => hl k hk (e ▸ k.index_mem_indices)
  have hkid : Tree.atLineage? { t with root := some kid } [kid.index] = some kid :=
    Tree.atLineage?_root rfl
  have hway : kid.lineage? kid.index [] = some [kid.index] := by
    obtain ⟨c', kids⟩ := kid
    rw [lineage?_mk, index_mk, if_pos rfl]
  have ht' : t = Tree.within { t with root := some kid } c l kid r := by
    rw [Tree.within, ← ht]
  obtain ⟨m, hm, hu⟩ := Tree.update?_within (c := c) (r := r) hne rfl
    (Tree.update?_root (t := { t with root := some kid }) (rebound v new) rfl)
  obtain rfl : kid.rebound v new = m := Option.some.inj hm
  refine ⟨[c.index], kid, { t with root := some (mk c (l ++ kid.rebound v new :: r)) },
    lineage?_within hl hc hway, ?_, hbound, ?_, ?_⟩
  · rw [ht']
    exact Tree.atLineage?_within hne rfl hkid
  · rw [ht']
    exact hu
  · exact Tree.update?_root (n := mk c (l ++ kid.rebound v new :: r)) _ rfl

/-- **A branch below a branch.** -/
theorem Rebinds.within (h : n.Rebinds v new old b n') (hl : ∀ k ∈ l, b ∉ k.indices)
    (hne : ∀ k ∈ l, k.index ≠ n.index) (hc : c.index ≠ b) :
    (mk c (l ++ n :: r)).Rebinds v new old b (mk c (l ++ n' :: r)) := by
  intro t ht
  have ht' : t = Tree.within { t with root := some n } c l n r := by
    rw [Tree.within, ← ht]
  obtain ⟨above, m, t₁, hway, hm, hbound, hu, hu'⟩ := h { t with root := some n } rfl
  obtain ⟨n₁, hn₁, hw⟩ := Tree.update?_within (c := c) (r := r) hne rfl hu
  have hindex : n₁.index = n.index := Tree.update?_index (index_rebound v new) hu rfl hn₁
  obtain ⟨n₂, hn₂, hw'⟩ := Tree.update?_within (c := c) (r := r) (fun k hk => hindex ▸ hne k hk)
    hn₁ hu'
  obtain rfl : n' = n₂ := Option.some.inj hn₂
  refine ⟨above ++ [c.index], m, _, lineage?_within hl hc hway, ?_, hbound, ?_, hw'⟩
  · rw [ht']
    exact Tree.atLineage?_within hne rfl hm
  · rw [ht']
    exact hw

end Node

/-! ## All branches over a pattern -/

namespace Formula

variable {P : Pools} {p v : String} {old : Nat} {new : Context} {f : Formula} {n : Node}
  {selected selected' : Node → Bool} {done : List Nat}

theorem core_rebindBranch (c : Cell) (a b : Nat) : (c.rebindBranch a b).core = c.core := by
  obtain ⟨truths, h⟩ := rebindBranch_eq c a b
  rw [h]
  rfl

/-- The nodes are as before, but for their places and the truths of their branches. -/
theorem map_core_replaced (f : Formula) : ∀ n : Node,
    (f.replaced p v old new selected n).map Cell.core = n.map Cell.core := by
  induction f with
  | quantified i q body ih =>
    rintro ⟨c, kids⟩
    unfold replaced
    split
    · rw [Node.map_mk, Node.map_mk, List.map_map]
      refine congrArg₂ Node.mk ?_ (List.map_congr_left fun kid _ => ?_)
      · split_ifs
        · exact core_rebindBranch c old new.id
        · rfl
      · rw [Function.comp_apply]
        split_ifs
        · exact Node.map_core_rebound v new kid
        · rfl
    · rw [Node.map_mk, Node.map_mk, List.map_map]
      exact congrArg (Node.mk _) (List.map_congr_left fun kid _ => ih kid)
  | binary i op left right ihl ihr =>
    rintro ⟨c, kids⟩
    unfold replaced
    split
    · rw [Node.map_mk, Node.map_mk, List.map_cons, List.map_cons, List.map_cons, List.map_cons, ihl,
        ihr]
    · rfl
  | negation i body ih =>
    rintro ⟨c, kids⟩
    unfold replaced
    split
    · rw [Node.map_mk, Node.map_mk, List.map_cons, List.map_cons, ih]
    · rfl
  | application i a => exact fun _ => rfl

theorem indices_replaced (f : Formula) (p v : String) (old : Nat) (new : Context)
    (selected : Node → Bool) (n : Node) :
    (f.replaced p v old new selected n).indices = n.indices :=
  Node.indices_eq_of_map (g := Cell.core) (fun _ => rfl) (map_core_replaced f n)

theorem replaced_of_unselected {pr : Formula → Cell → List Node → Prop} : f.Every pr n →
    (∀ k ∈ f.branchesOver p n, selected k = false) → f.replaced p v old new selected n = n := by
  induction f generalizing n with
  | quantified i q body ih =>
    obtain ⟨c, kids⟩ := n
    intro he h
    unfold branchesOver at h
    unfold replaced
    by_cases hq : q.pattern = p
    · rw [if_pos hq] at h
      have hany : ¬kids.any selected = true := fun hany => by
        obtain ⟨k, hk, hs⟩ := List.any_eq_true.mp hany
        exact Bool.false_ne_true ((h k hk).symm.trans hs)
      rw [if_pos hq, if_neg hany, map_rebound_of_unselected h]
    · rw [if_neg hq] at h
      rw [if_neg hq]
      refine congrArg (Node.mk c) ((List.map_congr_left fun k hk => ?_).trans (List.map_id kids))
      exact ih (he.2 k hk) fun m hm => h m (List.mem_flatMap.mpr ⟨k, hk, hm⟩)
  | binary i op left right ihl ihr =>
    obtain ⟨c, kids⟩ := n
    rintro ⟨-, a, b, rfl, ha, hb⟩ h
    unfold replaced
    dsimp only
    rw [ihl ha fun k hk => h k (List.mem_append_left _ hk),
      ihr hb fun k hk => h k (List.mem_append_right _ hk)]
  | negation i body ih =>
    obtain ⟨c, kids⟩ := n
    rintro ⟨-, a, rfl, ha⟩ h
    unfold replaced
    dsimp only
    rw [ih ha h]
  | application i a => exact fun _ _ => rfl

theorem replaced_congr (f : Formula) : ∀ {n : Node},
    (∀ k ∈ f.branchesOver p n, selected k = selected' k) →
    f.replaced p v old new selected n = f.replaced p v old new selected' n := by
  induction f with
  | quantified i q body ih =>
    rintro ⟨c, kids⟩ h
    unfold branchesOver at h
    unfold replaced
    by_cases hq : q.pattern = p
    · rw [if_pos hq] at h
      rw [if_pos hq, if_pos hq]
      have hany : kids.any selected = kids.any selected' := by
        rw [Bool.eq_iff_iff, List.any_eq_true, List.any_eq_true]
        exact exists_congr fun k => and_congr_right fun hk => by rw [h k hk]
      have hmap : (kids.map fun kid => if selected kid = true then kid.rebound v new else kid) =
          kids.map fun kid => if selected' kid = true then kid.rebound v new else kid :=
        List.map_congr_left fun k hk => by rw [h k hk]
      rw [hany, hmap]
    · rw [if_neg hq] at h
      rw [if_neg hq, if_neg hq]
      refine congrArg (Node.mk c) (List.map_congr_left fun k hk => ih fun m hm => h m ?_)
      exact List.mem_flatMap.mpr ⟨k, hk, hm⟩
  | binary i op left right ihl ihr =>
    rintro ⟨c, kids⟩ h
    unfold branchesOver at h
    unfold replaced
    split
    · rw [ihl fun k hk => h k (List.mem_append_left _ hk),
        ihr fun k hk => h k (List.mem_append_right _ hk)]
    · rfl
  | negation i body ih =>
    rintro ⟨c, kids⟩ h
    unfold branchesOver at h
    unfold replaced
    split
    · rw [ih h]
    · rfl
  | application i a => exact fun _ => rfl

theorem index_sublist (kids : List Node) :
    (kids.map Node.index).Sublist (kids.flatMap Node.indices) := by
  induction kids with
  | nil => exact .slnil
  | cons kid kids ih =>
    obtain ⟨c, grandkids⟩ := kid
    rw [List.flatMap_cons, Node.indices_mk]
    exact (ih.trans (List.sublist_append_right _ _)).cons_cons _

/-- The slots of the branches over a pattern are slots of the tree, in order. -/
theorem branchesOver_sublist (f : Formula) : ∀ n : Node,
    ((f.branchesOver p n).map Node.index).Sublist n.indices := by
  have hroot : ∀ {c : Cell} {kids : List Node} {l : List Nat},
      l.Sublist (kids.flatMap Node.indices) → l.Sublist (Node.mk c kids).indices := by
    intro c kids l h
    rw [Node.indices_mk]
    exact h.trans (List.sublist_cons_self _ _)
  induction f with
  | quantified i q body ih =>
    rintro ⟨c, kids⟩
    unfold branchesOver
    split_ifs
    · exact hroot (index_sublist kids)
    · rw [List.map_flatMap]
      exact hroot (List.Sublist.flatMap_right kids fun kid _ => ih kid)
  | binary i op left right ihl ihr =>
    rintro ⟨c, kids⟩
    unfold branchesOver
    split
    · rw [List.map_append]
      refine hroot ?_
      rw [List.flatMap_cons, List.flatMap_cons, List.flatMap_nil, List.append_nil]
      exact (ihl _).append (ihr _)
    · exact List.nil_sublist _
  | negation i body ih =>
    rintro ⟨c, kids⟩
    unfold branchesOver
    split
    · refine hroot ?_
      rw [List.flatMap_cons, List.flatMap_nil, List.append_nil]
      exact ih _
    · exact List.nil_sublist _
  | application i a => exact fun _ => List.nil_sublist _

theorem mem_indices_of_branchesOver (f : Formula) {n k : Node} (hk : k ∈ f.branchesOver p n) :
    k.index ∈ n.indices :=
  (branchesOver_sublist f n).subset (List.mem_map.mpr ⟨k, hk, rfl⟩)

/-- The branches in slots that were seen to. -/
def inSlots (done : List Nat) (kid : Node) : Bool :=
  kid.index ∈ done

section Separate

variable {c : Cell} {l r : List Node} {m : Node} {b : Nat}
  (hd : (Node.mk c (l ++ m :: r)).indices.Nodup)

include hd in
/-- A slot below a branch is not that of the node, nor below another branch. -/
theorem separate (hb : b ∈ m.indices) : c.index ≠ b ∧ ∀ k ∈ l ++ r, b ∉ k.indices := by
  rw [Node.indices_mk, List.nodup_cons, List.flatMap_append, List.flatMap_cons] at hd
  refine ⟨fun e => hd.1 ?_, fun k hk h => ?_⟩
  · exact e ▸ List.mem_append_right _ (List.mem_append_left _ hb)
  · have hperm : (l.flatMap Node.indices ++ (m.indices ++ r.flatMap Node.indices)).Perm
        (m.indices ++ (l ++ r).flatMap Node.indices) := by
      rw [List.flatMap_append, ← List.append_assoc, ← List.append_assoc]
      exact List.perm_append_comm.append_right _
    exact (List.nodup_append.mp (hperm.nodup_iff.mp hd.2)).2.2 _ hb _
      (List.mem_flatMap.mpr ⟨k, hk, h⟩) rfl

include hd in
theorem inSlots_cons_of_other (hb : b ∈ m.indices) {m' k : Node} (hm' : m' ∈ l ++ r)
    (hk : k.index ∈ m'.indices) : inSlots (b :: done) k = inSlots done k := by
  have hne : k.index ≠ b := fun e => (separate hd hb).2 m' hm' (e ▸ hk)
  unfold inSlots
  rw [Bool.eq_iff_iff, decide_eq_true_iff, decide_eq_true_iff, List.mem_cons, or_iff_right hne]

include hd in
theorem rebinds_within {g : Node → Node} (hg : ∀ n, (g n).indices = n.indices) {r' : List Node}
    {m₁ m₂ : Node} (hb : b ∈ m.indices) (hm : m₁.indices = m.indices)
    (h : m₁.Rebinds v new old b m₂) :
    (Node.mk c (l.map g ++ m₁ :: r')).Rebinds v new old b (Node.mk c (l.map g ++ m₂ :: r')) := by
  refine h.within (fun k hk => ?_) (fun k hk e => ?_) (separate hd hb).1
  · obtain ⟨k₀, hk₀, rfl⟩ := List.mem_map.mp hk
    rw [hg]
    exact (separate hd hb).2 k₀ (List.mem_append_left r hk₀)
  · obtain ⟨k₀, hk₀, rfl⟩ := List.mem_map.mp hk
    refine (separate hd (hm ▸ m₁.index_mem_indices)).2 k₀ (List.mem_append_left r hk₀) ?_
    rw [← e, ← hg k₀]
    exact (g k₀).index_mem_indices

end Separate

section OneMore

variable (v : String) (new : Context) {kid : Node} (hbound : boundTo old kid = true)
  (hnew : inSlots done kid = false)

include hbound hnew

/-- One more branch of a quantifier over the pattern is rebound, the first one of it. -/
theorem rebinds_over {q : Quantifier} {i : Nat} {c : Cell} {kids : List Node} (hq : q.pattern = p)
    (hkids : (kids.map fun kid => kid.cell.bound.getD 0).Nodup) (hd : (Node.mk c kids).indices.Nodup)
    (hk : kid ∈ kids) (hdone : ∀ k ∈ kids, inSlots done k = true → boundTo old k = true) :
    ((quantified i q body).replaced p v old new (inSlots done) (.mk c kids)).Rebinds v new old kid.index
      ((quantified i q body).replaced p v old new (inSlots (kid.index :: done)) (.mk c kids)) := by
  have hkid : inSlots (kid.index :: done) kid = true := decide_eq_true List.mem_cons_self
  obtain ⟨l, r, rfl⟩ := List.append_of_mem hk
  have hother : ∀ k ∈ l ++ r, inSlots done k = false := fun k hk => by
    refine Bool.eq_false_iff.mpr fun h => ?_
    have hmem : k ∈ l ++ kid :: r := by
      rw [List.mem_append] at hk ⊢
      exact hk.imp_right (List.mem_cons_of_mem kid)
    exact Bool.false_ne_true ((boundTo_of_other hkids hbound k hk).symm.trans (hdone k hmem h))
  have hother' : ∀ k ∈ l ++ r, inSlots (kid.index :: done) k = false := fun k hk =>
    (inSlots_cons_of_other hd kid.index_mem_indices hk k.index_mem_indices).trans (hother k hk)
  have hnone : ∀ k ∈ l ++ kid :: r, inSlots done k = false := fun k hk => by
    rcases List.mem_append.mp hk with hk | hk
    · exact hother k (List.mem_append_left r hk)
    · rcases List.mem_cons.mp hk with rfl | hk
      · exact hnew
      · exact hother k (List.mem_append_right l hk)
  have hany : ¬(l ++ kid :: r).any (inSlots done) = true := fun h => by
    obtain ⟨k, hk, hs⟩ := List.any_eq_true.mp h
    exact Bool.false_ne_true ((hnone k hk).symm.trans hs)
  have hany' : (l ++ kid :: r).any (inSlots (kid.index :: done)) = true :=
    List.any_eq_true.mpr ⟨kid, hk, hkid⟩
  unfold replaced
  rw [if_pos hq, if_pos hq, if_neg hany, if_pos hany', map_rebound_of_unselected hnone,
    map_rebound_of_selected hkid hother']
  have hsep := separate hd kid.index_mem_indices
  exact Node.rebinds_branch (fun k hk => hsep.2 k (List.mem_append_left r hk)) hsep.1
    (of_decide_eq_true hbound)

/-- **One more branch** over the pattern is rebound. -/
theorem rebinds_replaced (hP : P.Keyed) : ∀ {n : Node}, f.Every (Placed P) n → n.indices.Nodup →
    kid ∈ f.branchesOver p n →
    (∀ k ∈ f.branchesOver p n, inSlots done k = true → boundTo old k = true) →
    (f.replaced p v old new (inSlots done) n).Rebinds v new old kid.index
      (f.replaced p v old new (inSlots (kid.index :: done)) n) := by
  induction f with
  | quantified i q body ih =>
    rintro ⟨c, kids⟩ hp hd hk hdone
    unfold branchesOver at hk hdone
    by_cases hq : q.pattern = p
    · rw [if_pos hq] at hk hdone
      exact rebinds_over v new hbound hnew hq (nodup_bounds hP hp.1.2) hd hk hdone
    · rw [if_neg hq] at hk hdone
      unfold replaced
      rw [if_neg hq, if_neg hq]
      obtain ⟨m, hm, hkm⟩ := List.mem_flatMap.mp hk
      obtain ⟨l, r, rfl⟩ := List.append_of_mem hm
      have hb : kid.index ∈ m.indices := mem_indices_of_branchesOver body hkm
      have hother : ∀ m' ∈ l ++ r, body.replaced p v old new (inSlots (kid.index :: done)) m' =
          body.replaced p v old new (inSlots done) m' := fun m' hm' =>
        replaced_congr body fun k hk =>
          inSlots_cons_of_other hd hb hm' (mem_indices_of_branchesOver body hk)
      have hl := List.map_congr_left fun m' hm' => hother m' (List.mem_append_left r hm')
      have hr := List.map_congr_left fun m' hm' => hother m' (List.mem_append_right l hm')
      rw [List.map_append, List.map_append, List.map_cons, List.map_cons, hl, hr]
      refine rebinds_within hd (indices_replaced body p v old new _) hb
        (indices_replaced body p v old new _ m) ?_
      exact ih (hp.2 m hm) (Node.nodup_indices_kid hd hm) hkm fun k hk =>
        hdone k (List.mem_flatMap.mpr ⟨m, hm, hk⟩)
  | binary i op left right ihl ihr =>
    rintro ⟨c, kids⟩ ⟨-, x, y, rfl, hpx, hpy⟩ hd hk hdone
    have hdx : x.indices.Nodup := Node.nodup_indices_kid hd List.mem_cons_self
    have hdy : y.indices.Nodup :=
      Node.nodup_indices_kid hd (List.mem_cons_of_mem _ List.mem_cons_self)
    have hdonex := fun k hk => hdone k (List.mem_append_left _ hk)
    have hdoney := fun k hk => hdone k (List.mem_append_right _ hk)
    unfold replaced
    dsimp only
    rcases List.mem_append.mp hk with hk | hk
    · have hb : kid.index ∈ x.indices := mem_indices_of_branchesOver left hk
      have hy : right.replaced p v old new (inSlots (kid.index :: done)) y =
          right.replaced p v old new (inSlots done) y := replaced_congr right fun k hk =>
        inSlots_cons_of_other (l := []) hd hb List.mem_cons_self
          (mem_indices_of_branchesOver right hk)
      rw [hy]
      exact rebinds_within (l := []) (g := id) hd (fun _ => rfl) hb
        (indices_replaced left p v old new _ x)
        (ihl hpx hdx hk hdonex)
    · have hb : kid.index ∈ y.indices := mem_indices_of_branchesOver right hk
      have hx : left.replaced p v old new (inSlots (kid.index :: done)) x =
          left.replaced p v old new (inSlots done) x := replaced_congr left fun k hk =>
        inSlots_cons_of_other (l := [x]) hd hb List.mem_cons_self
          (mem_indices_of_branchesOver left hk)
      rw [hx]
      exact rebinds_within (l := [x]) hd (indices_replaced left p v old new _) hb
        (indices_replaced right p v old new _ y)
        (ihr hpy hdy hk hdoney)
  | negation i body ih =>
    rintro ⟨c, kids⟩ ⟨-, x, rfl, hpx⟩ hd hk hdone
    unfold replaced
    exact rebinds_within (l := []) (g := id) hd (fun _ => rfl)
      (mem_indices_of_branchesOver body hk) (indices_replaced body p v old new _ x)
      (ih hpx (Node.nodup_indices_kid hd List.mem_cons_self) hk hdone)
  | application i a => exact fun _ _ hk => absurd hk List.not_mem_nil

end OneMore

end Formula

end RuleMonitor
