import RuleMonitor.Proofs.Arenas.Calls

/-!
# What a node remembers of its branches

A node does not keep the history of its branches. It keeps how many of them are fresh, and whether any
was removed, since it was touched; and the branches are in such an order that this tells which ones are
fresh. That holds as long as the node lives, whatever is grafted, removed and touched, at the node and
elsewhere, and also where a slot that was freed is taken again by a branch of the same node.

* `Arena.Past`: the branches when a node was touched or created, and what happened to them since;
  `Arena.Past.grafted`, `Arena.Past.remaining`: the branches that the past leaves.
* `Arena.Since`: the arenas that grafts, removals and touches lead to while a node lives.
* `Record.Tells`: a node remembers its past; `Record.Tells.graft`, **`Record.Tells.forget`**: one event.
* **`Arena.Since.remembers`**: fresh and old branches of a node.
-/

namespace RuleMonitor

/-- The element at a position is dropped from a list without repetitions. -/
theorem Lists.eraseIdx_eq_filter {l : List Nat} (hd : l.Nodup) {i k : Nat} (h : l[i]? = some k) :
    l.eraseIdx i = l.filter (· ≠ k) := by
  obtain ⟨hi, rfl⟩ := List.getElem?_eq_some_iff.mp h
  rw [← hd.erase_getElem i hi, hd.erase_eq_filter]
  exact List.filter_congr fun x _ => by simp [bne, BEq.beq]

/-! ## The past of a node -/

namespace Arena

/-- What happens to the branches of a node. -/
inductive Event where
  | grafted (branch : Nat)
  | removed (branch : Nat)
deriving DecidableEq

/-- The past of a node since it was touched, or else created. -/
structure Past where
  /-- The branches then. -/
  kids : List Nat
  /-- What happened to the branches since then. -/
  events : List Event := []
deriving DecidableEq

/-- The branches that are grafted and not removed afterwards, in order. -/
def survivors : List Event → List Nat
  | [] => []
  | .grafted k :: es => if .removed k ∈ es then survivors es else k :: survivors es
  | .removed _ :: es => survivors es

namespace Past

/-- The branches grafted since then, and not removed since. -/
def grafted (p : Past) : List Nat :=
  survivors p.events

/-- The other branches, in their order. -/
def remaining (p : Past) : List Nat :=
  p.kids.filter fun k => .removed k ∉ p.events

/-- The past with one more event. -/
def add (p : Past) (e : Event) : Past :=
  { p with events := p.events ++ [e] }

/-- The past of the node in the slot `i` after a call on an arena. -/
def next (s : Sentence) (i : Nat) (a : Arena) (p : Past) : Call → Past
  | .graft parent q =>
    match Arena.graft s parent q a with
    | .ok k _ => if parent = some i then p.add (.grafted k) else p
    | .error .. => p
  | .remove k => if (a.node? k).bind (·.parent) = some i then p.add (.removed k) else p
  | .touch j => if j = i then ⟨((a.node? i).map (·.kids)).getD [], []⟩ else p
  | _ => p

variable {p : Past} {k : Nat}

theorem grafted_grafted (p : Past) (k : Nat) : (p.add (.grafted k)).grafted = p.grafted ++ [k] := by
  obtain ⟨kids, es⟩ := p
  change survivors (es ++ [.grafted k]) = survivors es ++ [k]
  induction es with
  | nil => rfl
  | cons e es ih =>
    rw [List.cons_append]
    cases e with
    | grafted j =>
      have hmem : Event.removed j ∈ es ++ [.grafted k] ↔ Event.removed j ∈ es := by simp
      simp only [survivors, hmem, ih]
      split_ifs <;> rfl
    | removed j => exact ih

theorem grafted_removed (p : Past) (k : Nat) :
    (p.add (.removed k)).grafted = p.grafted.filter (· ≠ k) := by
  obtain ⟨kids, es⟩ := p
  change survivors (es ++ [.removed k]) = (survivors es).filter (· ≠ k)
  induction es with
  | nil => rfl
  | cons e es ih =>
    rw [List.cons_append]
    cases e with
    | grafted j =>
      have hmem : Event.removed j ∈ es ++ [.removed k] ↔ Event.removed j ∈ es ∨ j = k := by simp
      simp only [survivors, hmem, ih]
      by_cases hj : Event.removed j ∈ es
      · rw [if_pos (.inl hj), if_pos hj]
      · by_cases hk : j = k
        · rw [if_pos (.inr hk), if_neg hj, List.filter_cons_of_neg (by simpa using hk)]
        · rw [if_neg (not_or.mpr ⟨hj, hk⟩), if_neg hj, List.filter_cons_of_pos (by simpa using hk)]
    | removed j => exact ih

theorem remaining_grafted (p : Past) (k : Nat) : (p.add (.grafted k)).remaining = p.remaining :=
  List.filter_congr fun j _ => by simp [add]

theorem remaining_removed (p : Past) (k : Nat) :
    (p.add (.removed k)).remaining = p.remaining.filter (· ≠ k) := by
  rw [remaining, remaining, List.filter_filter]
  refine List.filter_congr fun j _ => ?_
  simp [add, Bool.and_comm]

theorem remaining_nil (kids : List Nat) : (Past.mk kids []).remaining = kids :=
  List.filter_eq_self.mpr fun _ _ => by simp

end Past

end Arena

/-! ## What a record tells -/

open Arena (Past Event)

namespace Record

variable {r : Record} {past : Past} {k position : Nat}

/-- A record remembers the past of its node. -/
structure Tells (r : Record) (past : Past) : Prop where
  kids : r.kids = past.remaining ++ past.grafted
  fresh : r.fresh = past.grafted.length
  pruned : r.pruned = true ↔ ∃ k, Event.removed k ∈ past.events

theorem Tells.new (hf : r.fresh = 0) (hp : r.pruned = false) : r.Tells ⟨r.kids, []⟩ where
  kids := by
    rw [Past.remaining_nil]
    exact (List.append_nil _).symm
  fresh := hf
  pruned := by simp [hp]

theorem Tells.graft (h : r.Tells past) (k : Nat) : (r.graft k).Tells (past.add (.grafted k)) where
  kids := by
    rw [Past.remaining_grafted, Past.grafted_grafted, ← List.append_assoc]
    exact congrArg (· ++ [k]) h.kids
  fresh := by
    rw [Past.grafted_grafted, List.length_append]
    exact congrArg (· + 1) h.fresh
  pruned := h.pruned.trans (exists_congr fun j => by simp [Past.add])

/-- **A branch goes**, on either side of the boundary. -/
theorem Tells.forget (h : r.Tells past) (hd : r.kids.Nodup) (hk : r.kids[position]? = some k)
    (bound : Option Nat) : (r.forget position bound).Tells (past.add (.removed k)) where
  kids := by
    rw [Past.remaining_removed, Past.grafted_removed, ← List.filter_append]
    exact (Lists.eraseIdx_eq_filter hd hk).trans (congrArg _ h.kids)
  fresh := by
    have hlength : r.kids.length - r.fresh = past.remaining.length := by
      rw [h.kids, h.fresh, List.length_append, Nat.add_sub_cancel]
    rw [h.kids] at hd hk
    obtain ⟨-, hg, hdisjoint⟩ := List.nodup_append.mp hd
    rw [Past.grafted_removed]
    change (if r.kids.length - r.fresh ≤ position then r.fresh - 1 else r.fresh) = _
    rw [hlength, h.fresh]
    by_cases hside : past.remaining.length ≤ position
    · rw [List.getElem?_append_right hside] at hk
      rw [if_pos hside, ← Lists.eraseIdx_eq_filter hg hk]
      exact (List.length_eraseIdx_of_lt (List.getElem?_eq_some_iff.mp hk).1).symm
    · rw [List.getElem?_append_left (Nat.lt_of_not_le hside)] at hk
      have hnot : ∀ j ∈ past.grafted, j ≠ k := fun j hj e =>
        hdisjoint k (List.mem_of_getElem? hk) j hj e.symm
      rw [if_neg hside, List.filter_eq_self.mpr fun j hj => decide_eq_true (hnot j hj)]
  pruned := iff_of_true rfl ⟨k, by simp [Past.add]⟩

theorem Tells.sides (h : r.Tells past) : r.fresh ≤ r.kids.length ∧
    r.oldKids = .ok past.remaining ∧ r.freshKids = .ok past.grafted := by
  have hle : r.fresh ≤ r.kids.length := by
    rw [h.kids, h.fresh, List.length_append]
    exact Nat.le_add_left _ _
  have hcount : r.settledCount = .ok past.remaining.length := by
    rw [settledCount, if_pos hle, h.kids, h.fresh, List.length_append, Nat.add_sub_cancel]
  refine ⟨hle, ?_, ?_⟩
  · rw [oldKids, hcount]
    change Except.ok _ = _
    rw [h.kids, List.take_left]
  · rw [freshKids, hcount]
    change Except.ok _ = _
    rw [h.kids, List.drop_left]

end Record

/-! ## Calls while a node lives -/

theorem Parts.Assembled.untouched {p : Parts} (h : p.Assembled) :
    ∀ r ∈ p.nodes, r.fresh = 0 ∧ r.pruned = false := by
  induction h with
  | single formula env bound =>
    intro r hr
    obtain rfl := List.mem_singleton.mp hr
    exact ⟨rfl, rfl⟩
  | @absorb p q r parent hp hq hparent hr ihp ihq =>
    rw [Parts.absorb_eq_ok hparent, Except.ok.injEq] at hr
    subst hr
    intro x hx
    obtain ⟨k, hk⟩ := List.mem_iff_getElem?.mp hx
    by_cases hlt : k < p.nodes.length
    · rw [Parts.getElem?_join_of_lt p hlt] at hk
      split_ifs at hk
      · obtain ⟨y, hy, rfl⟩ := Option.map_eq_some_iff.mp hk
        exact ihp y (List.mem_of_getElem? hy)
      · exact ihp x (List.mem_of_getElem? hk)
    · obtain ⟨j, rfl⟩ := Nat.exists_eq_add_of_le' (Nat.le_of_not_lt hlt)
      rw [Parts.getElem?_join_of_ge p hparent, Parts.getElem?_settled] at hk
      obtain ⟨y, hy, rfl⟩ := Option.map_eq_some_iff.mp hk
      exact ihq y (List.mem_of_getElem? hy)

namespace Arena

variable {s : Sentence} {a a' : Arena} {t : Tree} {i : Nat} {r : Record} {past : Past}

/-- The calls that change the structure. -/
def Call.Structural : Call → Prop
  | .graft .. | .remove _ | .touch _ => True
  | _ => False

/-- The arenas that lead from the creation of the node in the slot `i` by a graft, with its past, by
calls that change the structure and leave the node alive, whether they succeed or not. -/
inductive Since (s : Sentence) (i : Nat) : Past → Arena → Prop
  | created {a a' : Arena} {parent : Option Nat} {p : Parts} {k : Nat} {r : Record} (h : Reached s a)
      (hx : (Call.graft parent p).Allowed s a) (hnew : a.node? i = none)
      (hrun : graft s parent p a = .ok k a') (hr : a'.node? i = some r) : Since s i ⟨r.kids, []⟩ a'
  | call {a : Arena} {past : Past} (x : Call) (h : Since s i past a) (hs : x.Structural)
      (hx : x.Allowed s a) (hlive : ((x.after s a).node? i).isSome = true) :
      Since s i (past.next s i a x) (x.after s a)

theorem Since.reached (h : Since s i past a) : Reached s a := by
  induction h with
  | @created a a' parent p k r h hx hnew hrun hr =>
    have hcall := h.call (.graft parent p) hx
    rwa [Call.after, Routine.after_eq hrun] at hcall
  | call x h hs hx hlive ih => exact ih.call x hx

theorem Reached.tells_new {parent : Option Nat} {p : Parts} {k : Nat} (h : Reached s a)
    (hx : (Call.graft parent p).Allowed s a) (hnew : a.node? i = none)
    (hrun : graft s parent p a = .ok k a') (hr : a'.node? i = some r) : r.Tells ⟨r.kids, []⟩ := by
  have hparent : parent ≠ some i := by
    rintro rfl
    rw [graft_error_of_parent hnew] at hrun
    cases hrun
  rcases h.holds.exists_graft hx.1 hx.2 parent with ⟨place, a₁, hrun', hgrafted, -⟩ | ⟨e, hrun', -⟩
  · cases hrun.symm.trans hrun'
    have hplaced : i ∈ (List.range p.nodes.length).map place := by
      by_contra hnot
      rw [hgrafted.kept i hnot hparent, hnew] at hr
      cases hr
    obtain ⟨j, hj, rfl⟩ := List.mem_map.mp hplaced
    have hget := List.getElem?_eq_getElem (List.mem_range.mp hj)
    obtain rfl := Option.some.inj (hr.symm.trans (hgrafted.copied j _ hget))
    obtain ⟨hfresh, hpruned⟩ := hx.1.untouched _ (List.mem_of_getElem? hget)
    exact .new hfresh hpruned
  · cases hrun.symm.trans hrun'

/-- **One call** keeps what a node remembers. -/
theorem Reached.tells_next (h : Reached s a) (hr : a.node? i = some r) (htells : r.Tells past)
    {x : Call} (hs : x.Structural) (hx : x.Allowed s a)
    (hlive : ((x.after s a).node? i).isSome = true) :
    ∃ r', (x.after s a).node? i = some r' ∧ r'.Tells (past.next s i a x) := by
  cases x with
  | graft parent p =>
    rcases h.holds.exists_graft hx.1 hx.2 parent with ⟨place, a', hrun, hgrafted, -⟩ | ⟨e, hrun, -⟩
    · rw [Call.after, Routine.after_eq hrun, Past.next, hrun]
      dsimp only
      by_cases hparent : parent = some i
      · rw [if_pos hparent]
        exact ⟨_, hgrafted.above i r hparent hr, htells.graft _⟩
      · rw [if_neg hparent]
        refine ⟨r, (hgrafted.kept i (fun hmem => ?_) hparent).trans hr, htells⟩
        obtain ⟨k, hk, rfl⟩ := List.mem_map.mp hmem
        rw [hgrafted.fresh k (List.mem_range.mp hk)] at hr
        cases hr
    · rw [Call.after, Routine.after_eq_of_error hrun, Past.next, hrun]
      exact ⟨r, hr, htells⟩
  | remove k =>
    cases hk : a.node? k with
    | none =>
      rw [Call.after, Routine.after_eq_of_error (remove_error hk s), Past.next, hk]
      exact ⟨r, hr, htells⟩
    | some rk =>
      obtain ⟨freed, a', hrun, hremoved, -⟩ := h.holds.exists_remove hk
      rw [Call.after, Routine.after_eq hrun] at hlive ⊢
      rw [Past.next, hk, Option.bind_some]
      by_cases hparent : rk.parent = some i
      · rw [if_pos hparent]
        obtain ⟨position, hposition, hnode⟩ := hremoved.above i r hparent hr
        exact ⟨_, hnode, htells.forget (h.holds.nodup_kids hr) hposition _⟩
      · rw [if_neg hparent]
        refine ⟨r, (hremoved.kept i (fun hmem => ?_) hparent).trans hr, htells⟩
        rw [hremoved.gone i hmem] at hlive
        cases hlive
  | touch j =>
    cases hj : a.node? j with
    | none =>
      have hne : j ≠ i := fun e => by
        rw [e, hr] at hj
        cases hj
      rw [Call.after, touch, Routine.after_eq_of_error (alter_error hj), Past.next, if_neg hne]
      exact ⟨r, hr, htells⟩
    | some rj =>
      rw [Call.after, touch, Routine.after_eq (alter_ok hj), node?_amend, Past.next, hr, Option.map_some]
      by_cases hji : j = i
      · rw [if_pos hji, if_pos hji]
        exact ⟨_, rfl, .new rfl rfl⟩
      · rw [if_neg hji, if_neg hji]
        exact ⟨r, rfl, htells⟩
  | apply | commit | rebind | renameLinks | beginCycle | clear => cases hs

/-- **A node remembers** which branches were grafted since it was touched, or else created, and whether
any was removed: there are as many branches as fresh ones at least; the last ones, which are fresh, are
those grafted since then and not removed since, in the order of the grafts; those before are the others,
in their former order; and the node is pruned if some branch was removed. -/
theorem Since.remembers (h : Since s i past a) : ∃ r old fresh, a.node? i = some r ∧
    r.fresh ≤ r.kids.length ∧ r.oldKids = .ok old ∧ r.freshKids = .ok fresh ∧ old ++ fresh = r.kids ∧
    fresh = past.grafted ∧ old = past.remaining ∧
    (r.pruned = true ↔ ∃ k, Event.removed k ∈ past.events) := by
  obtain ⟨r, hr, htells⟩ : ∃ r, a.node? i = some r ∧ r.Tells past := by
    induction h with
    | @created a a' parent p k r h hx hnew hrun hr =>
      exact ⟨r, hr, h.tells_new hx hnew hrun hr⟩
    | call x h hs hx hlive ih =>
      obtain ⟨r, hr, htells⟩ := ih
      exact h.reached.tells_next hr htells hs hx hlive
  obtain ⟨hle, hold, hfresh⟩ := htells.sides
  exact ⟨r, _, _, hr, hle, hold, hfresh, htells.kids.symm, rfl, rfl, htells.pruned⟩

end Arena

namespace Sample

/-- A root that was just created. -/
def lone : Arena :=
  (Arena.Call.graft none (.single 4 ∅ none)).after pairing {}

/-- The root after it was touched with two branches; one of them is removed between two more grafts. -/
def regrown : Past × Arena :=
  [Arena.Call.graft (some 0) gauge, .graft (some 0) gauge, .touch 0, .graft (some 0) gauge, .remove 3,
    .graft (some 0) gauge].foldl
    (fun x c => (x.1.next pairing 0 x.2 c, c.after pairing x.2)) (⟨[], []⟩, lone)

theorem since_lone : Arena.Since pairing 0 ⟨[], []⟩ lone :=
  .created (r := { formula := 4, env := ∅, bound := none }) .empty ⟨.single 4 ∅ none, by decide⟩ rfl
    (show Arena.graft pairing none (.single 4 ∅ none) {} = .ok 0 lone from rfl) rfl

theorem since_regrown : Arena.Since pairing 0 regrown.1 regrown.2 := by
  have hgraft : ∀ a, (Arena.Call.graft (some 0) gauge).Allowed pairing a := fun _ =>
    ⟨assembled_gauge, by decide⟩
  exact (((((since_lone.call (.graft (some 0) gauge) trivial (hgraft _) (by decide +kernel)).call
    (.graft (some 0) gauge) trivial (hgraft _) (by decide +kernel)).call (.touch 0) trivial trivial
    (by decide +kernel)).call (.graft (some 0) gauge) trivial (hgraft _) (by decide +kernel)).call
    (.remove 3) trivial trivial (by decide +kernel)).call (.graft (some 0) gauge) trivial (hgraft _)
    (by decide +kernel)

end Sample

theorem Arena.Since.remembers_sample : Since Sample.pairing 0 Sample.regrown.1 Sample.regrown.2 ∧
    Sample.regrown.1 = ⟨[1, 3], [.grafted 5, .removed 3, .grafted 4]⟩ ∧
    ∃ r, Sample.regrown.2.node? 0 = some r ∧ r.oldKids = .ok [1] ∧ r.freshKids = .ok [5, 4] ∧
      r.pruned = true := by
  have hpast : Sample.regrown.1 = ⟨[1, 3], [.grafted 5, .removed 3, .grafted 4]⟩ := by decide +kernel
  obtain ⟨r, old, fresh, hr, -, hold, hfresh, -, rfl, rfl, hpruned⟩ := Since.remembers Sample.since_regrown
  rw [hpast] at hold hfresh hpruned
  exact ⟨Sample.since_regrown, hpast, r, hr, hold, hfresh, hpruned.mpr ⟨3, by decide⟩⟩

end RuleMonitor
