import RuleMonitor.Instantiation.Consistency
import RuleMonitor.Proofs.Arenas.Descent

/-!
# Slots that are written, taken and freed

Each operation on an arena goes from slot to slot. What it does to one slot it does to no other one, and
what a loop does is known slot by slot.

* `Arena.Same`: a slot of which nothing changes.
* `Arena.Has`: a slot that holds a node of a tree, and stands in the tables as the node says.
* `Arena.alter_ok`, **`Arena.exists_alterAll`**: nodes that are changed, one and many.
* `Arena.allocateAll_eq`, **`Arena.exists_occupyAll`**: slots that are taken and filled.
* `Arena.Emptied`, **`Arena.exists_release`**: slots that are freed.
* **`Arena.walk_node`**, **`Arena.read_node`**: the slots below a node, and the node itself.
-/

namespace RuleMonitor

open Std (ExtTreeMap ExtTreeSet)

namespace Arena

variable {a a₁ a' : Arena} {s : Sentence} {i j : Nat} {r : Record} {f : Record → Record} {p : String}

/-- Nothing changes of a slot. -/
structure Same (a a' : Arena) (i : Nat) : Prop where
  node : a'.node? i = a.node? i
  staged : i ∈ a'.staged ↔ i ∈ a.staged
  quantified : ∀ p, i ∈ a'.quantifiersOver p ↔ i ∈ a.quantifiersOver p

theorem Same.refl (a : Arena) (i : Nat) : a.Same a i :=
  ⟨rfl, .rfl, fun _ => .rfl⟩

theorem Same.trans (h : a.Same a₁ i) (h' : a₁.Same a' i) : a.Same a' i :=
  ⟨h'.node.trans h.node, h'.staged.trans h.staged, fun p => (h'.quantified p).trans (h.quantified p)⟩

/-- A slot holds a node with a cell, and the tables say of the slot what the cell says. -/
structure Has (s : Sentence) (a : Arena) (parent : Option Nat) (c : Cell) (kids : List Nat) : Prop where
  node : a.node? c.index = some (c.record parent kids)
  staged : c.index ∈ a.staged ↔ c.pending = true
  quantified : ∀ p, c.index ∈ a.quantifiersOver p ↔ s.patternAt? c.formula = some p

theorem Has.same {parent : Option Nat} {c : Cell} {kids : List Nat} (h : a.Has s parent c kids)
    (hs : a.Same a' c.index) : a'.Has s parent c kids :=
  ⟨hs.node.trans h.node, hs.staged.trans h.staged, fun p => (hs.quantified p).trans (h.quantified p)⟩

/-- Nothing stands in a slot, and no table mentions it. -/
structure Vacant (a : Arena) (i : Nat) : Prop where
  node : a.node? i = none
  staged : i ∉ a.staged
  quantified : ∀ p, i ∉ a.quantifiersOver p

theorem Vacant.same (h : a.Vacant i) (hs : a.Same a' i) : a'.Vacant i :=
  ⟨hs.node.trans h.node, mt hs.staged.mp h.staged, fun p => mt (hs.quantified p).mp (h.quantified p)⟩

/-! ## Changing nodes -/

theorem node_ok (h : a.node? i = some r) : a.node i = .ok r := by
  rw [node, h]

theorem node_error (h : a.node? i = none) : a.node i = .error (Tree.notLive i) := by
  rw [node, h]

theorem node?_amend (a : Arena) (i : Nat) (f : Record → Record) (j : Nat) :
    (a.amend i f).node? j = if i = j then (a.node? j).map f else a.node? j := by
  unfold node? amend
  rw [List.getElem?_modify]
  split_ifs with hij <;> cases a.nodes[j]? with
  | none => rfl
  | some slot => rfl

theorem alter_ok (h : a.node? i = some r) : alter i f a = .ok ⟨⟩ (a.amend i f) := by
  unfold alter
  rw [Routine.get_bind, Routine.bind_ok (Routine.ofExcept_ok (node_ok h) a)]
  rfl

theorem alter_error (h : a.node? i = none) : alter i f a = .error (Tree.notLive i) a := by
  unfold alter
  rw [Routine.get_bind, Routine.bind_error (Routine.ofExcept_error (node_error h) a)]

theorem same_amend (a : Arena) (f : Record → Record) (h : j ≠ i) : a.Same (a.amend i f) j where
  node := by rw [node?_amend, if_neg (Ne.symm h)]
  staged := .rfl
  quantified _ := .rfl

/-- **Many nodes are changed**, each of them once. -/
theorem exists_alterAll {l : List Nat} (hd : l.Nodup) (hl : ∀ i ∈ l, (a.node? i).isSome) :
    ∃ nodes, (l.forM fun i => alter i f) a = .ok ⟨⟩ { a with nodes } ∧
      nodes.length = a.nodes.length ∧
      ∀ j, node? { a with nodes } j = if j ∈ l then (a.node? j).map f else a.node? j := by
  induction l generalizing a with
  | nil => exact ⟨a.nodes, rfl, rfl, fun j => by rw [if_neg List.not_mem_nil]⟩
  | cons i l ih =>
    rw [List.nodup_cons] at hd
    rw [List.forall_mem_cons] at hl
    obtain ⟨r, hr⟩ := Option.isSome_iff_exists.mp hl.1
    have hlive : ∀ j ∈ l, ((a.amend i f).node? j).isSome := fun j hj => by
      have hij : i ≠ j := fun e => hd.1 (e ▸ hj)
      rw [node?_amend, if_neg hij]
      exact hl.2 j hj
    obtain ⟨nodes, hrun, hlength, hnodes⟩ := ih hd.2 hlive
    refine ⟨nodes, (Routine.bind_ok (alter_ok hr)).trans hrun, ?_, fun j => (hnodes j).trans ?_⟩
    · rw [hlength, amend, List.length_modify]
    · rw [node?_amend]
      by_cases hij : i = j
      · rw [if_pos hij, if_neg (hij ▸ hd.1), if_pos (hij ▸ List.mem_cons_self)]
      · rw [if_neg hij]
        simp only [List.mem_cons, Ne.symm hij, false_or]

/-! ## Taking slots -/

/-- The slots for `n` more nodes, in the order in which they are taken. -/
def nextSlots (a : Arena) (n : Nat) : List Nat :=
  a.free.take n ++ List.range' a.nodes.length (n - a.free.length)

/-- The arena after `n` slots were taken. -/
def taken (a : Arena) (n : Nat) : Arena :=
  { a with
    free := a.free.drop n
    nodes := a.nodes ++ List.replicate (n - a.free.length) none }

theorem allocate_eq (a : Arena) : allocate a = .ok ((a.nextSlots 1).headD 0) (a.taken 1) := by
  unfold allocate nextSlots taken
  rw [Routine.get_bind]
  cases hfree : a.free with
  | nil => rfl
  | cons i free =>
    rw [List.length_cons, Nat.sub_eq_zero_of_le (Nat.le_add_left 1 free.length), List.replicate_zero,
      List.append_nil]
    rfl

/-- **Slots are taken** from those that are free, and opened when there are none. -/
theorem allocateAll_eq (n : Nat) : ∀ a : Arena, allocateAll n a = .ok (a.nextSlots n) (a.taken n) := by
  induction n with
  | zero =>
    intro a
    simp [allocateAll, nextSlots, taken]
    rfl
  | succ n ih =>
    intro a
    have hslots : (a.nextSlots 1).headD 0 :: (a.taken 1).nextSlots n = a.nextSlots (n + 1) := by
      unfold nextSlots taken
      cases a.free with
      | nil => simp [List.range'_succ]
      | cons i free => simp
    have htaken : (a.taken 1).taken n = a.taken (n + 1) := by
      unfold taken
      cases a.free with
      | nil => simp [List.replicate_succ]
      | cons i free => simp
    unfold allocateAll
    rw [Routine.bind_ok (allocate_eq a), Routine.bind_ok (ih _), hslots, htaken]
    rfl

theorem node?_taken (a : Arena) (n i : Nat) : (a.taken n).node? i = a.node? i := by
  unfold node? taken
  by_cases hi : i < a.nodes.length
  · rw [List.getElem?_append_left hi]
  · rw [List.getElem?_append_right (Nat.le_of_not_lt hi), List.getElem?_replicate,
      List.getElem?_eq_none (Nat.le_of_not_lt hi)]
    split_ifs <;> rfl

theorem same_taken (a : Arena) (n i : Nat) : a.Same (a.taken n) i :=
  ⟨node?_taken a n i, .rfl, fun _ => .rfl⟩

/-! ## Filling slots -/

theorem node?_occupy (s : Sentence) (r : Record) (hi : i < a.nodes.length) (j : Nat) :
    (a.occupy s i r).node? j = if i = j then some r else a.node? j := by
  unfold node? occupy
  rw [List.getElem?_set]
  split_ifs <;> rfl

theorem mem_quantifiersOver_occupy : j ∈ (a.occupy s i r).quantifiersOver p ↔
    i = j ∧ s.patternAt? r.formula = some p ∨ j ∈ a.quantifiersOver p := by
  unfold quantifiersOver occupy Sentence.patternAt?
  cases s.quantifierAt? r.formula with
  | none => simp
  | some q =>
    by_cases hp : q.pattern = p
    · subst hp
      simp [quantifiersOver, ExtTreeSet.mem_insert]
    · simp [ExtTreeMap.getElem?_insert, hp]

theorem same_occupy (s : Sentence) (r : Record) (hi : i < a.nodes.length) (h : i ≠ j) :
    a.Same (a.occupy s i r) j where
  node := by rw [node?_occupy s r hi, if_neg h]
  staged := .rfl
  quantified p := by
    rw [mem_quantifiersOver_occupy]
    simp [h]

/-- **Many slots are filled**, each of them once. -/
theorem exists_occupyAll (s : Sentence) {l : List (Nat × Record)} (hd : (l.map Prod.fst).Nodup)
    (hl : ∀ e ∈ l, e.1 < a.nodes.length) :
    ∃ nodes quantifiers,
      occupyAll s l a = .ok ⟨⟩ { a with nodes, quantifiers } ∧
      nodes.length = a.nodes.length ∧
      (∀ j ∉ l.map Prod.fst, a.Same { a with nodes, quantifiers } j) ∧
      ∀ e ∈ l, node? { a with nodes, quantifiers } e.1 = some e.2 ∧
        ∀ p, e.1 ∈ quantifiersOver { a with nodes, quantifiers } p ↔
          s.patternAt? e.2.formula = some p ∨ e.1 ∈ a.quantifiersOver p := by
  induction l generalizing a with
  | nil => exact ⟨_, _, rfl, rfl, fun j _ => .refl a j, nofun⟩
  | cons e l ih =>
    rw [List.map_cons, List.nodup_cons] at hd
    rw [List.forall_mem_cons] at hl
    have hlength : (a.occupy s e.1 e.2).nodes.length = a.nodes.length := by
      rw [occupy, List.length_set]
    obtain ⟨nodes, quantifiers, hrun, hlen, hsame, hfilled⟩ := @ih (a.occupy s e.1 e.2) hd.2 fun e' he' =>
      hlength ▸ hl.2 e' he'
    refine ⟨nodes, quantifiers, hrun, hlen.trans hlength, fun j hj => ?_, ?_⟩
    · rw [List.map_cons, List.mem_cons, not_or] at hj
      exact (same_occupy s e.2 hl.1 (Ne.symm hj.1)).trans (hsame j hj.2)
    · rw [List.forall_mem_cons]
      constructor
      · have hkept := hsame e.1 hd.1
        refine ⟨hkept.node.trans ?_, fun p => (hkept.quantified p).trans ?_⟩
        · rw [node?_occupy s e.2 hl.1, if_pos rfl]
        · rw [mem_quantifiersOver_occupy]
          simp
      · intro e' he'
        have hne : e.1 ≠ e'.1 := fun h => hd.1 (h ▸ List.mem_map_of_mem he')
        exact ⟨(hfilled e' he').1, fun p => ((hfilled e' he').2 p).trans
          (or_congr_right ((same_occupy s e.2 hl.1 hne).quantified p))⟩

/-! ## Freeing slots -/

theorem node?_vacate (a : Arena) (s : Sentence) (i : Nat) (r : Record) (j : Nat) :
    (a.vacate s i r).node? j = if i = j then none else a.node? j := by
  unfold node? vacate
  rw [List.getElem?_set]
  split_ifs <;> rfl

theorem mem_quantifiersOver_vacate : j ∈ (a.vacate s i r).quantifiersOver p ↔
    j ∈ a.quantifiersOver p ∧ ¬ (i = j ∧ s.patternAt? r.formula = some p) := by
  unfold quantifiersOver vacate Sentence.patternAt?
  cases s.quantifierAt? r.formula with
  | none => simp
  | some q =>
    by_cases hp : q.pattern = p
    · subst hp
      cases hq : a.quantifiers[q.pattern]? <;> simp [hq, and_comm]
    · simp [ExtTreeMap.getElem?_modify, hp]

theorem mem_foldl_erase {slots : List Nat} : ∀ {m : ExtTreeSet Nat},
    i ∈ slots.foldl (·.erase ·) m ↔ i ∈ m ∧ i ∉ slots := by
  induction slots with
  | nil => simp
  | cons slot slots ih =>
    intro m
    rw [List.foldl_cons, ih, ExtTreeSet.mem_erase, List.mem_cons, not_or]
    rw [ne_eq, Std.LawfulEqCmp.compare_eq_iff_eq]
    constructor
    · exact fun ⟨⟨hne, hm⟩, hi⟩ => ⟨hm, Ne.symm hne, hi⟩
    · exact fun ⟨hm, hne, hi⟩ => ⟨⟨Ne.symm hne, hm⟩, hi⟩

/-- Some slots are vacated, in an order. Nothing else changes of the nodes and the tables. -/
structure Emptied (a a' : Arena) (freed : List Nat) : Prop where
  length : a'.nodes.length = a.nodes.length
  root : a'.root = a.root
  free : a'.free = freed.reverse ++ a.free
  was : a'.wasSubstantial = freed.foldl (·.erase ·) a.wasSubstantial
  now : a'.substantial = freed.foldl (·.erase ·) a.substantial
  same : ∀ i ∉ freed, a.Same a' i
  vacant : ∀ i ∈ freed, a'.Vacant i

theorem Emptied.nil (a : Arena) : a.Emptied a [] :=
  ⟨rfl, rfl, rfl, rfl, rfl, fun i _ => .refl a i, nofun⟩

theorem Emptied.append {freed freed' : List Nat} (h : a.Emptied a₁ freed) (h' : a₁.Emptied a' freed') :
    a.Emptied a' (freed ++ freed') where
  length := h'.length.trans h.length
  root := h'.root.trans h.root
  free := by rw [h'.free, h.free, List.reverse_append, List.append_assoc]
  was := by rw [h'.was, h.was, List.foldl_append]
  now := by rw [h'.now, h.now, List.foldl_append]
  same i hi := by
    rw [List.mem_append, not_or] at hi
    exact (h.same i hi.1).trans (h'.same i hi.2)
  vacant i hi := by
    by_cases hi' : i ∈ freed'
    · exact h'.vacant i hi'
    · exact (h.vacant i ((List.mem_append.mp hi).resolve_right hi')).same (h'.same i hi')

theorem emptied_vacate (s : Sentence) (hr : ∀ p, i ∈ a.quantifiersOver p → s.patternAt? r.formula = some p) :
    a.Emptied (a.vacate s i r) [i] where
  length := List.length_set
  root := rfl
  free := rfl
  was := rfl
  now := rfl
  same j hj := by
    have hij : i ≠ j := fun e => hj (e ▸ List.mem_singleton_self i)
    refine ⟨?_, ?_, fun p => ?_⟩
    · rw [node?_vacate, if_neg hij]
    · change j ∈ a.staged.erase i ↔ _
      simp [hij]
    · rw [mem_quantifiersOver_vacate]
      simp [hij]
  vacant j hj := by
    obtain rfl := List.mem_singleton.mp hj
    refine ⟨?_, ?_, fun p => ?_⟩
    · rw [node?_vacate, if_pos rfl]
    · change j ∉ a.staged.erase j
      simp
    · rw [mem_quantifiersOver_vacate]
      exact fun h => h.2 ⟨rfl, hr p h.1⟩

theorem release_cons (h : a.node? i = some r) (s : Sentence) (stack : List Nat) :
    release s (i :: stack) a = release s (r.kids.reverse ++ stack) (a.vacate s i r) := by
  rw [release]
  split
  · next r' hr' =>
    cases h.symm.trans hr'
    rfl
  · next hnone => cases h.symm.trans hnone

/-- **A subtree is freed**, a node first and then its branches, from the last one to the first. -/
theorem exists_release {n : Node} : ∀ {a : Arena} {parent : Option Nat} (stack : List Nat),
    n.Everywhere (a.Has s) parent → n.indices.Nodup →
    ∃ a', release s (n.index :: stack) a = release s stack a' ∧ a.Emptied a' n.slots := by
  induction n using Node.induct with
  | mk c kids ih =>
    intro a parent stack h hd
    obtain ⟨hc, hkids⟩ := Node.everywhere_mk.mp h
    rw [Node.indices_mk, List.nodup_cons] at hd
    have hfirst := emptied_vacate (a := a) (i := c.index) (r := c.record parent (kids.map Node.index)) s
      fun p hp => (hc.quantified p).mp hp
    -- the branches, from the last one to the first, once the slot of the node is free
    have hall : ∀ {a : Arena} {stack : List Nat}, (∀ kid ∈ kids, kid.Everywhere (a.Has s) (some c.index)) →
        (kids.flatMap Node.indices).Nodup →
        ∃ a', release s ((kids.map Node.index).reverse ++ stack) a = release s stack a' ∧
          a.Emptied a' (Node.slotsAll kids) := by
      clear hkids hd hfirst hc h
      induction kids with
      | nil => exact fun _ _ => ⟨_, rfl, .nil _⟩
      | cons kid kids ihs =>
        intro a stack h hd
        rw [List.forall_mem_cons] at h
        rw [List.flatMap_cons, List.nodup_append] at hd
        obtain ⟨a₁, hrun, hrest⟩ := @ihs (fun k hk => ih k (List.mem_cons_of_mem _ hk)) a (kid.index :: stack)
          h.2 hd.2.1
        have hkid : kid.Everywhere (a₁.Has s) (some c.index) := h.1.imp fun p c' ks hc' hhas =>
          hhas.same (hrest.same _ fun hmem => by
            obtain ⟨k, hk, hmem⟩ := List.mem_flatMap.mp ((Node.slotsAll_perm kids).subset hmem)
            exact hd.2.2 _ (List.mem_map_of_mem hc') _ (List.mem_flatMap.mpr ⟨k, hk, hmem⟩) rfl)
        obtain ⟨a₂, hrun', hlast⟩ := ih kid List.mem_cons_self stack hkid hd.1
        refine ⟨a₂, ?_, hrest.append hlast⟩
        rw [List.map_cons, List.reverse_cons, List.append_assoc, List.singleton_append, hrun, hrun']
    have hkept : ∀ kid ∈ kids, kid.Everywhere ((a.vacate s c.index _).Has s) (some c.index) :=
      fun kid hk => (hkids kid hk).imp fun p c' ks hc' hhas => hhas.same (hfirst.same _ fun hmem =>
        hd.1 (List.mem_singleton.mp hmem ▸ List.mem_flatMap.mpr ⟨kid, hk, List.mem_map_of_mem hc'⟩))
    obtain ⟨a', hrun, hrest⟩ := @hall _ stack hkept hd.2
    exact ⟨a', (release_cons hc.node s stack).trans hrun, hfirst.append hrest⟩

/-! ## Looking below a slot -/

/-- **The walk below a node** comes to its slots in pre-order. -/
theorem walk_node {n : Node} : ∀ {parent : Option Nat} {steps : Nat} {stack below : List Nat},
    n.Everywhere (a.Has s) parent → a.walk steps stack = .ok below →
    a.walk (steps + n.indices.length) (n.index :: stack) = .ok (n.indices ++ below) := by
  induction n using Node.induct with
  | mk c kids ih =>
    intro parent steps stack below h hbelow
    obtain ⟨hc, hkids⟩ := Node.everywhere_mk.mp h
    have hall : ∀ {steps : Nat} {stack below : List Nat},
        (∀ kid ∈ kids, kid.Everywhere (a.Has s) (some c.index)) → a.walk steps stack = .ok below →
        a.walk (steps + (kids.flatMap Node.indices).length) (kids.map Node.index ++ stack) =
          .ok (kids.flatMap Node.indices ++ below) := by
      clear hkids hbelow hc h
      induction kids with
      | nil => exact fun _ hbelow => hbelow
      | cons kid kids ihs =>
        intro steps stack below h hbelow
        rw [List.forall_mem_cons] at h
        have hrest := ihs (fun k hk => ih k (List.mem_cons_of_mem _ hk)) h.2 hbelow
        have hfirst := ih kid List.mem_cons_self h.1 hrest
        rwa [List.flatMap_cons, List.length_append, Nat.add_comm kid.indices.length, ← Nat.add_assoc,
          List.append_assoc]
    rw [Node.indices_mk, List.length_cons, ← Nat.add_assoc, Node.index_mk, walk, node_ok hc.node]
    change Except.map _ (a.walk _ (kids.map Node.index ++ stack)) = _
    rw [hall hkids hbelow]
    rfl

/-- **A node is read off** its slot and those below it. -/
theorem read_node {n : Node} : ∀ {parent : Option Nat} {levels : Nat}, n.Everywhere (a.Has s) parent →
    n.indices.length ≤ levels → a.read levels n.index = some n := by
  induction n using Node.induct with
  | mk c kids ih =>
    intro parent levels h hlevels
    obtain ⟨hc, hkids⟩ := Node.everywhere_mk.mp h
    rw [Node.indices_mk, List.length_cons] at hlevels
    obtain ⟨levels, rfl⟩ := Nat.exists_eq_add_one.mpr (Nat.zero_lt_of_lt hlevels)
    have hread : (kids.map Node.index).filterMap (a.read levels) = kids := by
      have hkid : ∀ kid ∈ kids, a.read levels kid.index = some kid := fun kid hk => by
        have hle : kid.indices.length ≤ (kids.flatMap Node.indices).length := by
          obtain ⟨l, k, rfl⟩ := List.append_of_mem hk
          rw [List.flatMap_append, List.flatMap_cons, List.length_append, List.length_append]
          omega
        exact ih kid hk (hkids kid hk) (by omega)
      rw [List.filterMap_map]
      exact (List.filterMap_congr hkid).trans List.filterMap_some
    have hcell : a.cell c.index (c.record parent (kids.map Node.index)) = c := by
      have hpending : a.staged.contains c.index = c.pending := Bool.eq_iff_iff.mpr hc.staged
      unfold cell
      rw [hpending]
      rfl
    rw [Node.index_mk, read, hc.node, Option.map_some, hcell]
    exact congrArg (some <| Node.mk c ·) hread

end Arena

end RuleMonitor
