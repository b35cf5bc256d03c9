import RuleMonitor.Proofs.Evaluation.Alike
import RuleMonitor.Proofs.Evaluation.Incremental
import RuleMonitor.Proofs.Evaluation.Planning

/-!
# Branches handed out

Which quantifiers hand their branches out to workers does not show in what evaluation finds. Nor does
it show when truths are held back, as long as no truth was held back before: once they are committed,
all nodes are those that evaluation leaves when it commits truths as it finds them.

* `Registry.Orderly`: no predicate crashes.
* `Stage.settle`, `Settled`: results up to truths that are held back.
* **`Setting.alike_plan`**, **`Setting.alike_evaluate`**, **`Setting.alike_reevaluateBatch`**,
  **`Setting.alike_explainTree`**: the parts of a cycle come to the same.
-/

namespace RuleMonitor

open Std (ExtTreeMap)

/-! ## Results that are not crashes -/

/-- A result is no crash. -/
def Outcome.Sober {α : Type} (x : Except Failure α) : Prop :=
  Outcome Eq x x

namespace Outcome

variable {α β : Type} {x : Except Failure α}

theorem sober_ok (a : α) : Sober (.ok a) :=
  .ok rfl

theorem sober_inconsistent (text : String) :
    Sober (.error (.inconsistent text) : Except Failure α) :=
  .error _

theorem sober_iff : Sober x ↔ ∀ c, x ≠ .error (.crash c) := by
  match x with
  | .ok a => exact ⟨fun _ _ => nofun, fun _ => .ok rfl⟩
  | .error (.error e) => exact ⟨fun _ _ => nofun, fun _ => .error e⟩
  | .error (.crash c) => exact ⟨nofun, fun h => absurd rfl (h c)⟩

theorem Sober.bind {f : α → Except Failure β} (hx : Sober x) (hf : ∀ a, Sober (f a)) :
    Sober (x >>= f) :=
  Outcome.bind hx fun a _ h => h ▸ hf a

end Outcome

theorem Cell.sober_committed (c : Cell) : Outcome.Sober c.committed := by
  unfold committed
  split
  · exact Outcome.sober_ok _
  · exact Outcome.sober_inconsistent _

theorem Cell.sober_stagedTruth (c : Cell) : Outcome.Sober c.stagedTruth := by
  unfold stagedTruth
  split
  · exact Outcome.sober_ok _
  · exact Outcome.sober_inconsistent _

/-! ## Predicates -/

/-- No predicate crashes. -/
def Registry.Orderly (r : Registry) : Prop :=
  ∀ (name : String) (p : Predicate), r.predicates[name]? = some p → ∀ args, Outcome.Sober (p args)

theorem Arguments.sober_context (args : Arguments) (position : String) :
    Outcome.Sober (args.context position) := by
  unfold context
  split
  · exact Outcome.sober_ok _
  · exact .error _

theorem Arguments.sober_text (args : Arguments) (position name : String) :
    Outcome.Sober (args.text position name) :=
  (args.sober_context position).bind fun c => by
    split
    · exact Outcome.sober_ok _
    · exact .error _

theorem Family.sober_test (family : Family) (args : Arguments) : Outcome.Sober (family.test args) := by
  cases family with
  | equalConst name value => exact (args.sober_text _ _).bind fun _ => Outcome.sober_ok _
  | equal first second =>
    exact (args.sober_text _ _).bind fun _ => (args.sober_text _ _).bind fun _ => Outcome.sober_ok _

theorem Registry.sober_resolve (name : String) (env : Env) (subst : Option Substitution) :
    ∀ params, Outcome.Sober (resolve name env subst params) := by
  intro params
  induction params with
  | nil => exact Outcome.sober_ok _
  | cons param params ih =>
    unfold resolve
    split
    · exact ih.bind fun _ => Outcome.sober_ok _
    · exact .error _

/-- **An application does not crash** if no predicate does. -/
theorem Registry.Orderly.sober_eval {r : Registry} (h : r.Orderly) (a : Application) (env : Env)
    (subst : Option Substitution) : Outcome.Sober (r.eval a env subst) := by
  refine (sober_resolve _ _ _ _).bind fun contexts => ?_
  unfold find?
  cases hp : r.predicates[a.name]? with
  | some p => exact h a.name p hp _
  | none =>
    cases Family.ofName? a.name with
    | some family => exact family.sober_test _
    | none => exact .error _

namespace Setting

/-! ## Structure -/

/-- The setting with other quantifiers that hand out their branches. -/
def handing (s : Setting) (concurrent : List Nat) : Setting :=
  { s with concurrent }

variable {s : Setting} {l : List Nat}

@[simp] theorem handing_facts : (s.handing l).facts = s.facts := rfl

@[simp] theorem handing_focus : (s.handing l).focus = s.focus := rfl

@[simp] theorem handing_minimalLinks : (s.handing l).minimalLinks = s.minimalLinks := rfl

theorem alike_instantiate (s : Setting) (l : List Nat) (f : Formula) (env : Env) (bound : Option Nat) :
    Eval.Alike Eq (s.instantiate f env bound) ((s.handing l).instantiate f env bound) :=
  .yields (s.instantiate_yields f env bound) ((s.handing l).instantiate_yields f env bound) rfl

theorem alike_branches {α β : Type} (s : Setting) (l : List Nat) (i : Nat) {f g : α → Eval β} (as : List α)
    (h : ∀ a ∈ as, Eval.Alike Eq (f a) (g a)) :
    Eval.Alike Eq (s.forBranches i f as) ((s.handing l).forBranches i g as) :=
  (s.alike_forBranches _ i (List.forall₂_same.mpr h)).imp fun _ _ h => List.forall₂_eq_eq_eq ▸ h

theorem sober_branchOf (q : Quantifier) (n : Node) (c : Context) :
    Outcome.Sober (branchOf q n c) := by
  unfold branchOf
  split
  · exact Outcome.sober_ok _
  · exact Outcome.sober_ok _
  · exact Outcome.sober_inconsistent _

theorem sober_branchesFor (q : Quantifier) (n : Node) : ∀ contexts,
    Outcome.Sober (branchesFor q n contexts) := by
  intro contexts
  induction contexts with
  | nil => exact Outcome.sober_ok _
  | cons c rest ih =>
    exact (sober_branchOf q n c).bind fun _ => ih.bind fun _ => Outcome.sober_ok _

theorem alike_planNode (f : Formula) : ∀ (above : List Nat) (n : Node),
    Eval.Alike Eq (s.planNode f above n) ((s.handing l).planNode f above n) := by
  induction f with
  | quantified i q body ih =>
    intro above n
    obtain ⟨c, kids⟩ := n
    unfold planNode
    rw [handing_focus, handing_facts]
    refine Eval.alike_ite (fun _ => Eval.alike_pure rfl) fun _ => ?_
    refine (sober_branchesFor q _ _).alike.bind ?_
    rintro removed _ rfl
    have hbranches := alike_branches s l i
      ((newContexts (s.facts.delta q.pattern)).filter fun new => q.admits c.env new)
      fun new _ => alike_instantiate s l body (q.bind c.env new) (some new.id)
    refine Eval.alike_ite (fun _ => ?_) fun _ => ?_
    · refine (alike_branches s l i _ fun kid _ => ih _ kid).bind ?_
      rintro inner _ rfl
      refine hbranches.bind ?_
      rintro branches _ rfl
      exact Eval.alike_pure rfl
    · refine hbranches.bind ?_
      rintro branches _ rfl
      exact Eval.alike_pure rfl
  | binary i op left right ihl ihr =>
    intro above n
    obtain ⟨c, kids⟩ := n
    unfold planNode
    rw [handing_focus]
    refine Eval.alike_ite (fun _ => Eval.alike_pure rfl) fun _ => ?_
    rcases kids with _ | ⟨a, _ | ⟨b, _ | ⟨_, _⟩⟩⟩
    case cons.cons.nil =>
      refine (ihl _ a).bind ?_
      rintro es _ rfl
      refine (ihr _ b).bind ?_
      rintro es' _ rfl
      exact Eval.alike_pure rfl
    all_goals exact Eval.alike_pure rfl
  | negation i body ih =>
    intro above n
    obtain ⟨c, kids⟩ := n
    unfold planNode
    rw [handing_focus]
    refine Eval.alike_ite (fun _ => Eval.alike_pure rfl) fun _ => ?_
    rcases kids with _ | ⟨a, _ | ⟨_, _⟩⟩
    case cons.nil => exact ih _ a
    all_goals exact Eval.alike_pure rfl
  | application i a => exact fun above n => Eval.alike_pure rfl

/-- **The plan** does not depend on the quantifiers that hand out their branches. -/
theorem alike_plan (s : Setting) (l : List Nat) (t : Tree) :
    Eval.Alike Eq (s.plan t) ((s.handing l).plan t) := by
  unfold plan
  split
  · exact alike_planNode _ _ _
  · exact Eval.alike_pure rfl

end Setting

/-! ## Truths that are held back -/

theorem Cell.commit_eq_self {c : Cell} : c.commit = c ↔ c.pending = false := by
  unfold commit
  split_ifs with h
  · refine ⟨fun he => ?_, fun he => absurd (h.symm.trans he) nofun⟩
    rw [← he]
  · exact ⟨fun _ => Bool.eq_false_iff.mpr h, fun _ => rfl⟩

/-- The cell with the truth found at a stage committed. -/
def Stage.settle : Stage → Cell → Cell
  | commit => id
  | hold => Cell.commit

namespace Stage

variable (stage : Stage) (c : Cell)

theorem settle_cases : stage.settle c = c ∨
    stage.settle c = { c with truth := c.staged, pending := false } := by
  cases stage with
  | commit => exact .inl rfl
  | hold => exact ite_eq_or_eq _ _ _ |>.symm

theorem base_settle : (stage.settle c).base = c.base := by
  rcases stage.settle_cases c with h | h
  · rw [h]
  · rw [h]
    rfl

theorem index_settle : (stage.settle c).index = c.index :=
  (congrArg Cell.index (stage.base_settle c) :)

theorem bound_settle : (stage.settle c).bound = c.bound :=
  (congrArg Cell.bound (stage.base_settle c) :)

theorem links_settle : (stage.settle c).links = c.links :=
  (congrArg Cell.links (stage.base_settle c) :)

theorem fresh_settle : (stage.settle c).fresh = c.fresh :=
  (congrArg Cell.fresh (stage.base_settle c) :)

theorem pruned_settle : (stage.settle c).pruned = c.pruned :=
  (congrArg Cell.pruned (stage.base_settle c) :)

theorem staged_settle : (stage.settle c).staged = c.staged := by
  rcases stage.settle_cases c with h | h <;> rw [h]

theorem settle_links (links : Option LinkSet) :
    stage.settle { c with links } = { stage.settle c with links } := by
  cases stage with
  | commit => rfl
  | hold => cases hp : c.pending <;> simp [settle, Cell.commit, hp]

theorem stagedTruth_settle : (stage.settle c).stagedTruth = c.stagedTruth := by
  unfold Cell.stagedTruth
  rw [stage.staged_settle]

variable {stage c}

/-- A truth that is found for a settled cell is committed when it settles. -/
theorem settle_write (h : stage.settle c = c) (truth : Truth) :
    stage.settle (c.write stage truth) = c.write .commit truth := by
  cases stage with
  | commit => rfl
  | hold =>
    change Cell.commit { c with staged := truth, pending := true } = { c with staged := truth, truth }
    rw [Cell.commit_eq_self.mp h]
    rfl

theorem settle_note (h : stage.settle c = c) (branchTruths : ExtTreeMap Nat Truth) :
    stage.settle { c with branchTruths } = { c with branchTruths } := by
  cases stage with
  | commit => rfl
  | hold => exact Cell.commit_eq_self.mpr (Cell.commit_eq_self.mp h :)

end Stage

/-- No truth found at a stage waits in a node or below it. -/
def Node.Settled (stage : Stage) (n : Node) : Prop :=
  n.map stage.settle = n

theorem Node.settled_commit (n : Node) : n.Settled .commit :=
  Node.map_eq_self fun _ _ => rfl

theorem Node.Calm.settled {n : Node} (h : n.Calm) (stage : Stage) : n.Settled stage := by
  cases stage with
  | commit => exact settled_commit n
  | hold => exact Node.map_eq_self fun c hc => Cell.commit_eq_self.mpr (h c hc)

theorem Node.settled_mk {stage : Stage} {c : Cell} {kids : List Node} :
    (Node.mk c kids).Settled stage ↔ stage.settle c = c ∧ ∀ kid ∈ kids, kid.Settled stage := by
  have h := List.map_inj_left (l := kids) (f := Node.map stage.settle) (g := id)
  rw [List.map_id] at h
  unfold Settled
  rw [map_mk, mk.injEq, h]
  rfl

theorem Node.map_settle_of_settled {stage : Stage} {kids : List Node}
    (h : ∀ kid ∈ kids, kid.Settled stage) : kids.map (Node.map stage.settle) = kids :=
  (List.map_congr_left h).trans (List.map_id kids)

theorem Setting.sober_boundOf (kid : Node) : Outcome.Sober (boundOf kid) := by
  unfold boundOf
  split
  · exact Outcome.sober_ok _
  · exact Outcome.sober_inconsistent _

theorem Setting.boundOf_settle (stage : Stage) (kid : Node) :
    boundOf (kid.map stage.settle) = boundOf kid := by
  unfold boundOf Node.index
  rw [Node.cell_map, stage.bound_settle, stage.index_settle]

theorem Setting.sober_foldBranchTruths (kind : QuantifierKind) (c : Cell) :
    Outcome.Sober (foldBranchTruths kind c) := by
  refine Outcome.Sober.bind ?_ fun _ => Outcome.sober_ok _
  refine (Outcome.mapM (R := Eq) (List.forall₂_same.mpr fun truth _ => ?_)).imp
    fun _ _ h => List.forall₂_eq_eq_eq ▸ h
  split
  · exact .ok rfl
  · exact .error _

theorem Node.oldKids_settle (stage : Stage) (n : Node) :
    (n.map stage.settle).oldKids = n.oldKids.map (Node.map stage.settle) := by
  unfold oldKids
  rw [kids_map, cell_map, stage.fresh_settle, List.length_map, List.map_take]

theorem Node.freshKids_settle (stage : Stage) (n : Node) :
    (n.map stage.settle).freshKids = n.freshKids.map (Node.map stage.settle) := by
  unfold freshKids
  rw [kids_map, cell_map, stage.fresh_settle, List.length_map, List.map_drop]

/-- A truth with the node where it was found at a stage, and with the node when it has settled. -/
structure Settles (stage : Stage) (a b : Bool × Node) : Prop where
  truth : a.1 = b.1
  node : a.2.map stage.settle = b.2

namespace Settles

variable {stage : Stage} {c : Cell} {as bs : List (Bool × Node)} {kids kids' : List Node}

theorem eq_of_commit {a b : Bool × Node} (h : Settles .commit a b) : a = b :=
  Prod.ext h.truth (a.2.settled_commit.symm.trans h.node)

theorem truths (h : List.Forall₂ (Settles stage) as bs) : as.map (·.1) = bs.map (·.1) :=
  Lists.map_eq_of_forall₂ h fun _ _ h => h.truth

theorem nodes (h : List.Forall₂ (Settles stage) as bs) :
    (as.map (·.2)).map (Node.map stage.settle) = bs.map (·.2) := by
  rw [List.map_map]
  exact Lists.map_eq_of_forall₂ h fun _ _ h => h.node

theorem conclude (hc : stage.settle c = c) (truth : Bool)
    (hk : kids.map (Node.map stage.settle) = kids') :
    Settles stage (Setting.conclude c stage truth kids) (Setting.conclude c .commit truth kids') where
  truth := rfl
  node := by
    unfold Setting.conclude
    rw [Node.map_mk, Stage.settle_write hc, hk]

theorem recordBranches (h : List.Forall₂ (Settles stage) as bs) : ∀ {c : Cell}, stage.settle c = c →
    Outcome (fun a b => a = b ∧ stage.settle a = a) (Setting.recordBranches c as)
      (Setting.recordBranches c bs) := by
  induction h with
  | nil => exact fun hc => .ok ⟨rfl, hc⟩
  | @cons a b as bs hab _ ih =>
    intro c hc
    obtain ⟨truth, kid⟩ := a
    obtain ⟨truth', kid'⟩ := b
    obtain ⟨rfl, rfl⟩ := hab
    unfold Setting.recordBranches
    refine Outcome.bind (R := Eq) (Setting.boundOf_settle stage kid ▸ Setting.sober_boundOf kid) ?_
    rintro id _ rfl
    exact ih (Stage.settle_note hc _)

end Settles

namespace Setting

variable {s : Setting} {l : List Nat} {stage : Stage}

theorem alike_forBranches_settles {α : Type} (s : Setting) (l : List Nat) (stage : Stage) (i : Nat)
    {f g : α → Eval (Bool × Node)} {as : List α}
    (h : ∀ a ∈ as, Eval.Alike (Settles stage) (f a) (g a)) :
    Eval.Alike (List.Forall₂ (Settles stage)) (s.forBranches i f as)
      ((s.handing l).forBranches i g as) :=
  s.alike_forBranches _ i (List.forall₂_same.mpr h)

theorem alike_record {β : Type} {R : β → β → Prop} {c : Cell} {as bs : List (Bool × Node)} {f g : Cell → Eval β}
    (h : List.Forall₂ (Settles stage) as bs) (hc : stage.settle c = c)
    (hfg : ∀ c', stage.settle c' = c' → Eval.Alike R (f c') (g c')) :
    Eval.Alike R (do f (← Routine.ofExcept (recordBranches c as)))
      (do g (← Routine.ofExcept (recordBranches c bs))) :=
  (Settles.recordBranches h hc).alike.bind fun c' _ h => h.1 ▸ hfg c' h.2

theorem alike_negate {c : Cell} {x y : Eval (Bool × Node)} (hc : stage.settle c = c)
    (h : Eval.Alike (Settles stage) x y) :
    Eval.Alike (Settles stage) (do let (ta, a) ← x; return conclude c stage (!ta) [a])
      (do let (ta, a) ← y; return conclude c .commit (!ta) [a]) := by
  refine h.bind ?_
  rintro ⟨ta, a⟩ ⟨_, _⟩ ⟨rfl, rfl⟩
  exact Eval.alike_pure (Settles.conclude hc _ rfl)

theorem alike_connect {c : Cell} {x y x' y' : Eval (Bool × Node)} (op : Connective) (hc : stage.settle c = c)
    (hx : Eval.Alike (Settles stage) x x') (hy : Eval.Alike (Settles stage) y y') :
    Eval.Alike (Settles stage)
      (do let (ta, a) ← x; let (tb, b) ← y; return conclude c stage (op.eval ta tb) [a, b])
      (do let (ta, a) ← x'; let (tb, b) ← y'; return conclude c .commit (op.eval ta tb) [a, b]) := by
  refine hx.bind ?_
  rintro ⟨ta, a⟩ ⟨_, _⟩ ⟨rfl, rfl⟩
  refine hy.bind ?_
  rintro ⟨tb, b⟩ ⟨_, _⟩ ⟨rfl, rfl⟩
  exact Eval.alike_pure (Settles.conclude hc _ rfl)

/-- **Full evaluation** comes to the same, whatever is handed out or held back. -/
theorem alike_evaluate (ho : s.registry.Orderly) (subst : Option Substitution) (f : Formula) :
    ∀ {n : Node}, n.Settled stage → Eval.Alike (Settles stage) (s.evaluate stage subst f n)
      ((s.handing l).evaluate .commit subst f n) := by
  induction f with
  | quantified i q body ih =>
    intro n hn
    obtain ⟨c, kids⟩ := n
    obtain ⟨hc, hkids⟩ := Node.settled_mk.mp hn
    refine (alike_forBranches_settles s l stage i fun kid hk => ih (hkids kid hk)).bind fun as bs h => ?_
    refine alike_record h hc fun c' hc' => ?_
    rw [Settles.truths h]
    exact Eval.alike_pure (Settles.conclude hc' _ (Settles.nodes h))
  | binary i op left right ihl ihr =>
    intro n hn
    obtain ⟨c, kids⟩ := n
    obtain ⟨hc, hkids⟩ := Node.settled_mk.mp hn
    unfold evaluate
    rcases kids with _ | ⟨a, _ | ⟨b, _ | ⟨_, _⟩⟩⟩
    case cons.cons.nil => exact alike_connect op hc (ihl (hkids a (by simp))) (ihr (hkids b (by simp)))
    all_goals exact Eval.alike_throw _
  | negation i body ih =>
    intro n hn
    obtain ⟨c, kids⟩ := n
    obtain ⟨hc, hkids⟩ := Node.settled_mk.mp hn
    unfold evaluate
    rcases kids with _ | ⟨a, _ | ⟨_, _⟩⟩
    case cons.nil => exact alike_negate hc (ih (hkids a (by simp)))
    all_goals exact Eval.alike_throw _
  | application i a =>
    intro n hn
    obtain ⟨c, kids⟩ := n
    obtain ⟨hc, hkids⟩ := Node.settled_mk.mp hn
    refine (ho.sober_eval a c.env subst).alike.bind ?_
    rintro truth _ rfl
    exact Eval.alike_pure (Settles.conclude hc _ (Node.map_settle_of_settled hkids))

theorem alike_unaffected {n : Node} (hn : n.Settled stage) :
    Eval.Alike (Settles stage) (do return (← Routine.ofExcept n.cell.committed, n))
      (do return (← Routine.ofExcept n.cell.committed, n)) :=
  n.cell.sober_committed.alike.bind fun _ _ h => Eval.alike_pure ⟨h, hn⟩

/-- Branches that stay are evaluated incrementally, fresh ones in full. -/
theorem alike_reevaluateBranches (ho : s.registry.Orderly) {i : Nat} {q : Quantifier} {body : Formula}
    {c : Cell} {kids : List Node} (hn : (Node.mk c kids).Settled stage)
    (ih : ∀ {kid : Node}, kid.Settled stage → Eval.Alike (Settles stage) (s.reevaluateBatch stage body kid)
      ((s.handing l).reevaluateBatch .commit body kid)) :
    Eval.Alike (Settles stage) (s.reevaluateBatch stage (.quantified i q body) (.mk c kids))
      ((s.handing l).reevaluateBatch .commit (.quantified i q body) (.mk c kids)) := by
  obtain ⟨hc, hkids⟩ := Node.settled_mk.mp hn
  have hold : ∀ kid ∈ (Node.mk c kids).oldKids, kid.Settled stage := fun kid hk =>
    hkids kid (List.mem_of_mem_take hk)
  have hfresh : ∀ kid ∈ (Node.mk c kids).freshKids, kid.Settled stage := fun kid hk =>
    hkids kid (List.mem_of_mem_drop hk)
  unfold reevaluateBatch
  rw [handing_focus, handing_facts]
  refine Eval.alike_ite (fun _ => alike_unaffected hn) fun _ => ?_
  refine Eval.alike_ite (fun _ => ?_) fun _ => ?_
  · -- The body is affected: all branches are evaluated.
    refine (alike_forBranches_settles s l stage i ?_).bind fun as bs h => ?_
    · rintro ⟨fresh, kid⟩ hk
      rcases List.mem_append.mp hk with hk | hk
      · obtain ⟨kid, hk, ⟨⟩⟩ := List.mem_map.mp hk
        exact ih (hold _ hk)
      · obtain ⟨kid, hk, ⟨⟩⟩ := List.mem_map.mp hk
        exact alike_evaluate ho none body (hfresh _ hk)
    · refine alike_record h hc fun c' hc' => ?_
      rw [Settles.truths h]
      exact Eval.alike_pure (Settles.conclude hc' _ (Settles.nodes h))
  · -- Only fresh branches are evaluated, the others count with the truths noted before.
    refine (alike_forBranches_settles s l stage i fun kid hk =>
      alike_evaluate ho none body (hfresh kid hk)).bind fun as bs h => ?_
    refine alike_record h hc fun c' hc' => ?_
    have hbase : Outcome.Sober (if (s.facts.delta q.pattern).deleted.isEmpty &&
        (s.facts.delta q.pattern).updated.isEmpty && !c.pruned then c.committed
        else foldBranchTruths q.kind c) := by
      split_ifs
      · exact c.sober_committed
      · exact sober_foldBranchTruths q.kind c
    refine hbase.alike.bind ?_
    rintro base _ rfl
    rw [Settles.truths h]
    refine Eval.alike_pure (Settles.conclude hc' _ ?_)
    rw [List.map_append, Node.map_settle_of_settled hold, Settles.nodes h]

/-- **Incremental evaluation** comes to the same, whatever is handed out or held back. -/
theorem alike_reevaluateBatch (ho : s.registry.Orderly) (f : Formula) :
    ∀ {n : Node}, n.Settled stage → Eval.Alike (Settles stage) (s.reevaluateBatch stage f n)
      ((s.handing l).reevaluateBatch .commit f n) := by
  induction f with
  | quantified i q body ih =>
    intro n hn
    obtain ⟨c, kids⟩ := n
    exact alike_reevaluateBranches ho hn ih
  | binary i op left right ihl ihr =>
    intro n hn
    obtain ⟨c, kids⟩ := n
    obtain ⟨hc, hkids⟩ := Node.settled_mk.mp hn
    unfold reevaluateBatch
    rw [handing_focus]
    refine Eval.alike_ite (fun _ => alike_unaffected hn) fun _ => ?_
    rcases kids with _ | ⟨a, _ | ⟨b, _ | ⟨_, _⟩⟩⟩
    case cons.cons.nil => exact alike_connect op hc (ihl (hkids a (by simp))) (ihr (hkids b (by simp)))
    all_goals exact Eval.alike_throw _
  | negation i body ih =>
    intro n hn
    obtain ⟨c, kids⟩ := n
    obtain ⟨hc, hkids⟩ := Node.settled_mk.mp hn
    unfold reevaluateBatch
    rw [handing_focus]
    refine Eval.alike_ite (fun _ => alike_unaffected hn) fun _ => ?_
    rcases kids with _ | ⟨a, _ | ⟨_, _⟩⟩
    case cons.nil => exact alike_negate hc (ih (hkids a (by simp)))
    all_goals exact Eval.alike_throw _
  | application i a =>
    intro n hn
    obtain ⟨c, kids⟩ := n
    exact alike_unaffected hn

end Setting

theorem Tree.mapRoot_settle_commit (t : Tree) : t.mapRoot (Node.map (Stage.settle .commit)) = t := by
  obtain ⟨root, free, slots, was, substantial⟩ := t
  cases root with
  | none => rfl
  | some root =>
    have h : root.map (Stage.settle .commit) = root := root.settled_commit
    unfold mapRoot
    rw [Option.map_some, h]

/-! ## Links -/

/-- What explains a node, and what explains it when the node has settled. -/
structure Explained.Settles (stage : Stage) (a b : Explained) : Prop where
  links : a.links = b.links
  node : a.node.map stage.settle = b.node
  visited : a.visited = b.visited

namespace Setting

variable {s : Setting} {l : List Nat} {stage : Stage} {c : Cell} {kids : List Node}

theorem settles_explained (s : Setting) (l : List Nat) (links : LinkSet) (visited : List Nat) :
    Explained.Settles stage (s.explained c kids links visited)
      ((s.handing l).explained (stage.settle c) (kids.map (Node.map stage.settle)) links visited) where
  links := rfl
  node := by
    unfold explained
    rw [Node.map_mk, stage.settle_links]
  visited := by
    unfold explained
    rw [handing_minimalLinks, stage.index_settle]

theorem settles_takenOver (s : Setting) (l : List Nat) (n : Node) (links : LinkSet) :
    Explained.Settles stage (s.takenOver n links)
      ((s.handing l).takenOver (n.map stage.settle) links) where
  links := rfl
  node := rfl
  visited := by
    unfold takenOver Node.index
    rw [handing_minimalLinks, Node.cell_map, stage.index_settle]

/-- The links that a node has are taken over, or else something follows. -/
theorem alike_takeOver {n n' : Node} {x y : Eval Explained} (links : Option LinkSet)
    (hn : n.map stage.settle = n') (h : Eval.Alike (Explained.Settles stage) x y) :
    Eval.Alike (Explained.Settles stage)
      (match links with
        | some links => return s.takenOver n links
        | none => x)
      (match links with
        | some links => return (s.handing l).takenOver n' links
        | none => y) := by
  subst hn
  cases links with
  | some links => exact Eval.alike_pure (settles_takenOver _ _ _ _)
  | none => exact h

theorem judge_settles (q : Quantifier) (kids : List Node) :
    Outcome (List.Forall₂ (Settles stage)) (judge q kids)
      (judge q (kids.map (Node.map stage.settle))) := by
  unfold judge
  refine Outcome.mapM ?_
  rw [List.forall₂_map_right_iff]
  refine List.forall₂_same.mpr fun kid _ => ?_
  rw [Node.cell_map, stage.stagedTruth_settle]
  refine Outcome.bind kid.cell.sober_stagedTruth ?_
  rintro truth _ rfl
  exact .ok ⟨rfl, rfl⟩

theorem keptLinks_settle (s : Setting) (l : List Nat) (body : Formula) (upToDate : Bool) :
    (s.handing l).keptLinks body (stage.settle c) upToDate = s.keptLinks body c upToDate := by
  unfold keptLinks
  rw [handing_focus, stage.pruned_settle, stage.links_settle]

/-- The branches of a quantifier that were visited, with whether they are witnesses. -/
structure SettlesVisit (stage : Stage) (a b : Bool × Explained) : Prop where
  witness : a.1 = b.1
  explained : Explained.Settles stage a.2 b.2

theorem collectLinks_settles (q : Quantifier) {as bs : List (Bool × Explained)}
    (h : List.Forall₂ (SettlesVisit stage) as bs) : ∀ links : LinkSet,
    Outcome Eq (collectLinks q links as) (collectLinks q links bs) := by
  induction h with
  | nil => exact fun links => .ok rfl
  | @cons a b as bs hab _ ih =>
    intro links
    obtain ⟨w, e⟩ := a
    obtain ⟨_, ⟨_, _, _⟩⟩ := b
    obtain ⟨rfl, rfl, rfl, rfl⟩ := hab
    unfold collectLinks
    split_ifs
    · refine Outcome.bind (R := Eq) ?_ fun more _ h => h ▸ ih _
      unfold branchLinks
      rw [boundOf_settle]
      exact Outcome.Sober.bind (sober_boundOf e.node) fun _ => Outcome.sober_ok _
    · exact ih links

theorem alike_visit {was : Nat → Bool} {body : Formula} {kid : Node} (visits : Bool)
    (h : Eval.Alike (Explained.Settles stage) (s.explain was body kid)
      ((s.handing l).explain was body (kid.map stage.settle))) :
    Eval.Alike (Explained.Settles stage)
      (if visits then s.explain was body kid else pure ⟨∅, kid, []⟩)
      (if visits then (s.handing l).explain was body (kid.map stage.settle)
        else pure ⟨∅, kid.map stage.settle, []⟩) :=
  Eval.alike_ite (fun _ => h) fun _ => Eval.alike_pure ⟨rfl, rfl, rfl⟩

/-- The links of a quantifier that starts from some links and looks at some branches. -/
theorem alike_explainBranches (q : Quantifier) (links : LinkSet) (before look : List Node)
    {hands hands' : List (Bool × Node) → Bool} {visit visit' : Bool × Node → Eval (Bool × Explained)}
    (hvisit : ∀ a b, Settles stage a b → Eval.Alike (SettlesVisit stage) (visit a) (visit' b)) :
    Eval.Alike (Explained.Settles stage)
      (do
        let judged ← Routine.ofExcept (judge q look)
        let results ← Eval.forEach (hands judged) visit judged
        let all ← Routine.ofExcept (collectLinks q links results)
        return s.explained c (before ++ results.map fun r => r.2.node) all
          (results.flatMap fun r => r.2.visited))
      (do
        let judged ← Routine.ofExcept (judge q (look.map (Node.map stage.settle)))
        let results ← Eval.forEach (hands' judged) visit' judged
        let all ← Routine.ofExcept (collectLinks q links results)
        return (s.handing l).explained (stage.settle c)
          (before.map (Node.map stage.settle) ++ results.map fun r => r.2.node) all
          (results.flatMap fun r => r.2.visited)) := by
  refine (judge_settles q look).alike.bind fun judged judged' hjudged => ?_
  refine (Eval.alike_forEach _ _ (hjudged.imp hvisit)).bind fun results results' hresults => ?_
  refine (collectLinks_settles q hresults links).alike.bind ?_
  rintro all _ rfl
  have hnodes : (results.map fun r => r.2.node).map (Node.map stage.settle) =
      results'.map fun r => r.2.node := by
    rw [List.map_map]
    exact Lists.map_eq_of_forall₂ hresults fun _ _ h => h.explained.node
  have hvisited : (results.flatMap fun r => r.2.visited) = results'.flatMap fun r => r.2.visited :=
    congrArg List.flatten (Lists.map_eq_of_forall₂ hresults fun _ _ h => h.explained.visited)
  rw [hvisited, ← hnodes, ← List.map_append]
  exact Eval.alike_pure (settles_explained _ _ _ _)

theorem alike_visitBranch {was : Nat → Bool} {body : Formula}
    (ih : ∀ kid : Node, Eval.Alike (Explained.Settles stage) (s.explain was body kid)
      ((s.handing l).explain was body (kid.map stage.settle)))
    (a b : Bool × Node) (h : Settles stage a b) :
    Eval.Alike (SettlesVisit stage)
      (if a.1 || !s.minimalLinks then do return (a.1, ← s.explain was body a.2)
        else return (a.1, ⟨∅, a.2, []⟩))
      (if b.1 || !s.minimalLinks then do return (b.1, ← (s.handing l).explain was body b.2)
        else return (b.1, ⟨∅, b.2, []⟩)) := by
  obtain ⟨w, kid⟩ := a
  obtain ⟨_, _⟩ := b
  obtain ⟨rfl, rfl⟩ := h
  refine Eval.alike_ite (fun _ => (ih kid).bind fun e e' he => ?_) fun _ => ?_
  · exact Eval.alike_pure ⟨rfl, he⟩
  · exact Eval.alike_pure ⟨rfl, rfl, rfl, rfl⟩

theorem alike_explain (was : Nat → Bool) (f : Formula) : ∀ (n : Node),
    Eval.Alike (Explained.Settles stage) (s.explain was f n)
      ((s.handing l).explain was f (n.map stage.settle)) := by
  induction f with
  | quantified i q body ih =>
    rintro ⟨c, kids⟩
    rw [Node.map_mk]
    unfold explain
    simp only [handing_focus, handing_minimalLinks, stage.index_settle, stage.links_settle]
    refine alike_takeOver _ (Node.map_mk _ _ _) ?_
    have hold := (Node.mk c kids).oldKids_settle stage
    have hfresh := (Node.mk c kids).freshKids_settle stage
    rw [Node.map_mk] at hold hfresh
    simp only [keptLinks_settle, hold, hfresh]
    cases (if s.focus.affects (.quantified i q body) then
      s.keptLinks body c (!s.minimalLinks || was c.index) else none) with
    | some links => exact alike_explainBranches q links _ _ (alike_visitBranch ih)
    | none => exact alike_explainBranches q ∅ [] kids (alike_visitBranch ih)
  | binary i op left right ihl ihr =>
    rintro ⟨c, kids⟩
    rw [Node.map_mk]
    unfold explain
    simp only [handing_focus, handing_minimalLinks, stage.index_settle, stage.links_settle,
      List.length_map]
    refine alike_takeOver _ (Node.map_mk _ _ _) ?_
    rcases kids with _ | ⟨a, _ | ⟨b, _ | ⟨_, _⟩⟩⟩
    case cons.cons.nil =>
      simp only [List.map_cons, List.map_nil, Node.cell_map, stage.stagedTruth_settle]
      refine a.cell.sober_stagedTruth.alike.bind ?_
      rintro ta _ rfl
      refine b.cell.sober_stagedTruth.alike.bind ?_
      rintro tb _ rfl
      refine c.sober_stagedTruth.alike.bind ?_
      rintro truth _ rfl
      refine (alike_visit _ (ihl a)).ite_bind ?_
      rintro ea ⟨_, _, _⟩ ⟨rfl, rfl, rfl⟩
      refine (alike_visit _ (ihr b)).ite_bind ?_
      rintro eb ⟨_, _, _⟩ ⟨rfl, rfl, rfl⟩
      exact Eval.alike_pure (settles_explained _ _ _ _)
    all_goals exact Eval.alike_throw _
  | negation i body ih =>
    rintro ⟨c, kids⟩
    rw [Node.map_mk]
    unfold explain
    simp only [handing_focus, handing_minimalLinks, stage.index_settle, stage.links_settle,
      List.length_map]
    refine alike_takeOver _ (Node.map_mk _ _ _) ?_
    rcases kids with _ | ⟨a, _ | ⟨_, _⟩⟩
    case cons.nil =>
      refine (ih a).bind ?_
      rintro ea ⟨_, _, _⟩ ⟨rfl, rfl, rfl⟩
      exact Eval.alike_pure (settles_explained _ _ _ _)
    all_goals exact Eval.alike_throw _
  | application i a =>
    rintro ⟨c, kids⟩
    rw [Node.map_mk]
    unfold explain
    simp only [handing_focus, handing_minimalLinks, stage.index_settle, stage.links_settle]
    exact alike_takeOver _ (Node.map_mk _ _ _) (Eval.alike_pure (settles_explained _ _ _ _))

/-- **Links** come to the same, whatever is handed out or held back. -/
theorem alike_explainTree (s : Setting) (l : List Nat) (stage : Stage) (t : Tree) :
    Eval.Alike (fun a b => a.mapRoot (Node.map stage.settle) = b) (s.explainTree t)
      ((s.handing l).explainTree (t.mapRoot (Node.map stage.settle))) := by
  obtain ⟨root, free, slots, was, substantial⟩ := t
  cases root with
  | none => exact Eval.alike_pure rfl
  | some root =>
    have hstaged : Eval.Alike Eq (Routine.ofExcept root.cell.stagedTruth : Eval Bool)
        (Routine.ofExcept (root.map stage.settle).cell.stagedTruth) := by
      rw [Node.cell_map, stage.stagedTruth_settle]
      exact root.cell.sober_stagedTruth.alike
    unfold explainTree
    refine hstaged.bind ?_
    rintro truth _ rfl
    refine Eval.alike_ite (fun _ => Eval.alike_pure rfl) fun _ => ?_
    refine (alike_explain was.contains s.sentence.formula root).bind ?_
    rintro e ⟨_, _, _⟩ ⟨rfl, rfl, rfl⟩
    exact Eval.alike_pure rfl

end Setting

end RuleMonitor
