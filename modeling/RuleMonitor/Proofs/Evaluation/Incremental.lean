import RuleMonitor.Evaluation.Incremental
import RuleMonitor.Proofs.Evaluation.Full

/-!
# Incremental evaluation of instances

After its structure was brought up to date, an instance is prepared for incremental evaluation: what
the cycle does not affect has its truths already, and an affected quantifier with a body that is not
affected has noted the truths of the branches that stayed. Evaluation then finds the truths that full
evaluation would find, and fails where it would fail.

* `Formula.Prepared`: an instance before incremental evaluation.
* `Setting.foldBranchTruths_ok`: the truth of a quantifier from the truths noted.
* `Setting.decided_committed`, `Setting.decided_resting`, `Setting.decided_kept`: what is decided by
  what was found before.
* **`Setting.reevaluateBatch_decided`**, **`Setting.reevaluateChange_decided`**: incremental evaluation
  finds the truth if the formula evaluates, and fails if it does not.
-/

namespace RuleMonitor

open Std (ExtTreeMap)

namespace Formula

/-- What is known of a quantifier whose body is not affected: the branches that stayed have their
truths, they are noted, and if no branch was removed, the committed truth is theirs. -/
structure Resting (r : Registry) (P : Pools) (q : Quantifier) (body : Formula) (n : Node) :
    Prop where
  found : ∀ kid ∈ n.oldKids, body.Every (Found r P) kid
  truths : n.cell.branchTruths = Node.stagedTruths n.oldKids
  committed : n.cell.pruned = false → n.cell.truth =
    .ofBool (q.kind.fold (n.oldKids.map fun kid => body.holds r P kid.cell.env))

/-- The node can be evaluated incrementally. -/
def Prepared (r : Registry) (P : Pools) (focus : Focus) : Formula → Node → Prop
  | f@(quantified _ q body), n@(.mk c kids) =>
    if focus.affects f then
      (∀ kid ∈ n.freshKids, body.Every Noted kid) ∧
        if focus.affects body then
          (∀ kid ∈ n.oldKids, Prepared r P focus body kid) ∧ f.Noted c kids
        else Resting r P q body n
    else f.Every (Found r P) n
  | f@(binary _ _ left right), n@(.mk _ kids) =>
    if focus.affects f then
      ∃ a b, kids = [a, b] ∧ Prepared r P focus left a ∧ Prepared r P focus right b
    else f.Every (Found r P) n
  | f@(negation _ body), n@(.mk _ kids) =>
    if focus.affects f then ∃ a, kids = [a] ∧ Prepared r P focus body a
    else f.Every (Found r P) n
  | f@(application ..), n => f.Every (Found r P) n

theorem Prepared.found {r : Registry} {P : Pools} {focus : Focus} {f : Formula} {n : Node}
    (h : f.Prepared r P focus n) (hf : focus.affects f = false) : f.Every (Found r P) n := by
  obtain ⟨c, kids⟩ := n
  cases f with
  | quantified i q body | binary i op left right | negation i body =>
    rwa [Prepared, hf, if_neg Bool.false_ne_true] at h
  | application i a => exact h

end Formula

theorem Node.oldKids_append_freshKids (n : Node) : n.oldKids ++ n.freshKids = n.kids :=
  List.take_append_drop _ _

theorem Node.mem_kids_of_mem_oldKids {n kid : Node} (h : kid ∈ n.oldKids) : kid ∈ n.kids :=
  List.mem_of_mem_take h

theorem Node.mem_kids_of_mem_freshKids {n kid : Node} (h : kid ∈ n.freshKids) : kid ∈ n.kids :=
  List.mem_of_mem_drop h

theorem Node.mem_oldKids_or_freshKids {n kid : Node} (h : kid ∈ n.kids) :
    kid ∈ n.oldKids ∨ kid ∈ n.freshKids := by
  rwa [← n.oldKids_append_freshKids, List.mem_append] at h

namespace Setting

variable {r : Registry} {P : Pools} {s : Setting} {stage : Stage} {f body : Formula} {c : Cell}
  {n : Node}

theorem committed_ok (h : f.Every (Formula.Found r P) n) (hn : n.Calm) :
    n.cell.committed = .ok (f.holds r P n.cell.env) := by
  have ht : n.cell.truth = .ofBool (f.holds r P n.cell.env) :=
    (h.root.2.1 (hn _ n.cell_mem_cells)).trans h.root.1
  rw [Cell.committed, ht, Truth.toBool?_ofBool]

/-- **The truth of a quantifier from the truths noted** for its branches. -/
theorem foldBranchTruths_ok (kind : QuantifierKind) {kids : List Node}
    (hnd : (kids.map fun kid => kid.cell.bound.getD 0).Nodup)
    (ht : c.branchTruths = Node.stagedTruths kids) {g : Node → Bool}
    (hg : ∀ kid ∈ kids, kid.cell.staged = .ofBool (g kid)) :
    foldBranchTruths kind c = .ok (kind.fold (kids.map g)) := by
  have hk : (kids.map fun kid => (kid.cell.bound.getD 0, kid.cell.staged)) =
      kids.map fun kid => (kid.cell.bound.getD 0, Truth.ofBool (g kid)) :=
    List.map_congr_left fun kid hk => by rw [hg kid hk]
  have hperm : c.branchTruths.values.Perm ((kids.map g).map Truth.ofBool) := by
    rw [ht, Node.stagedTruths, hk, List.map_map]
    refine (Map.values_ofList_perm ?_).trans (List.Perm.of_eq ?_)
    · rwa [List.map_map]
    · rw [List.map_map]
      rfl
  have hv : (c.branchTruths.values.map fun t => t.toBool?.getD false).Perm (kids.map g) := by
    refine (hperm.map _).trans (List.Perm.of_eq ?_)
    rw [List.map_map]
    refine (List.map_congr_left fun b _ => ?_).trans (List.map_id _)
    rw [Function.comp_apply, Truth.toBool?_ofBool]
    rfl
  rw [foldBranchTruths, Formula.mapM_ok (g := fun t => t.toBool?.getD false)]
  · exact congrArg Except.ok (kind.fold_perm hv)
  · intro t htv
    obtain ⟨b, -, rfl⟩ := List.mem_map.mp (hperm.mem_iff.mp htv)
    rw [Truth.toBool?_ofBool]
    rfl

/-- The truth of a quantifier whose body is not affected, from the branches that stayed and those that
are new. -/
theorem evaluated_resting {i : Nat} {q : Quantifier} {bs : List (Bool × Node)} {base : Bool}
    (hp : (n.kids.map Node.place).Perm (q.places P n.cell.env))
    (hr : Formula.Resting r P q body n)
    (hall : List.Forall₂ (Evaluated r P stage none body) n.freshKids bs)
    (hbase : base = q.kind.fold (n.oldKids.map fun kid => body.holds r P kid.cell.env)) :
    Evaluated r P stage none (.quantified i q body) n
      (conclude { n.cell with branchTruths := Node.stagedTruths (n.oldKids ++ bs.map Prod.snd) }
        stage (q.kind.fold (base :: bs.map Prod.fst)) (n.oldKids ++ bs.map Prod.snd)) := by
  have hold : List.Forall₂ (Evaluated r P stage none body) n.oldKids
      (n.oldKids.map fun kid => (body.holds r P kid.cell.env, kid)) := by
    rw [List.forall₂_map_right_iff]
    exact List.forall₂_same.mpr fun kid hk => .refl (hr.found kid hk)
  have hkids : List.Forall₂ (Evaluated r P stage none body) n.kids
      ((n.oldKids.map fun kid => (body.holds r P kid.cell.env, kid)) ++ bs) := by
    rw [← n.oldKids_append_freshKids]
    exact List.rel_append hold hall
  have hsnd : (((n.oldKids.map fun kid => (body.holds r P kid.cell.env, kid)) ++ bs).map
      Prod.snd) = n.oldKids ++ bs.map Prod.snd := by
    rw [List.map_append, List.map_map]
    exact congrArg (· ++ _) (List.map_id _)
  have ht : q.kind.fold (base :: bs.map Prod.fst) =
      (Formula.quantified i q body).holds r P n.cell.env := by
    rw [hbase, ← QuantifierKind.fold_append, Formula.holds_quantified hp,
      ← n.oldKids_append_freshKids, List.map_append]
    exact congrArg (fun l => q.kind.fold (_ ++ l))
      (Lists.map_eq_of_forall₂ hall fun _ _ h => h.truth.symm).symm
  obtain ⟨c, kids⟩ := n
  have := Evaluated.quantified (c := c) hkids ht rfl
  rwa [hsnd] at this

theorem isSome_of_places {q : Quantifier} {env : Env} {kids : List Node}
    (hp : (kids.map Node.place).Perm (q.places P env)) :
    ∀ kid ∈ kids, kid.cell.bound.isSome = true := by
  intro kid hk
  obtain ⟨x, -, hx, -⟩ := Formula.exists_of_places hp hk
  rw [hx, Option.isSome_some]

/-! ## What was found before -/

section Before

variable {K : Failure → Prop} {i : Nat} {q : Quantifier} {kids : List Node}

theorem decided_committed (hp : f.Every (Formula.Placed P) n) (h : f.Every (Formula.Found r P) n)
    (hn : n.Calm) :
    Eval.Decided K (do return (← Routine.ofExcept n.cell.committed, n)) (f.Evaluates r P n.cell.env)
      (Evaluated r P stage none f n) :=
  Eval.decided_of_yields (Formula.evaluates_of_found hp h)
    ((Eval.yields_ofExcept (committed_ok h hn)).bind (Eval.yields_pure _)) (.refl h)

/-- A quantifier whose body is not affected is decided by the branches that are new. -/
theorem decided_resting {x : Eval (List (Bool × Node))} {base : Except Failure Bool}
    (hp : (Formula.quantified i q body).Every (Formula.Placed P) (.mk c kids))
    (hr : Formula.Resting r P q body (.mk c kids))
    (hbase : base = .ok (q.kind.fold ((Node.mk c kids).oldKids.map fun kid =>
      body.holds r P kid.cell.env)))
    (hx : x.Decided K (∀ kid ∈ (Node.mk c kids).freshKids, body.Evaluates r P kid.cell.env)
      (List.Forall₂ (Evaluated r P stage none body) (Node.mk c kids).freshKids)) :
    Eval.Decided K
      (do
        let branches ← x
        let c' ← Routine.ofExcept (recordBranches c branches)
        let base ← Routine.ofExcept base
        return conclude c' stage (q.kind.fold (base :: branches.map (·.1)))
          ((Node.mk c kids).oldKids ++ branches.map (·.2)))
      ((Formula.quantified i q body).Evaluates r P c.env)
      (Evaluated r P stage none (.quantified i q body) (.mk c kids)) := by
  have hpl : (kids.map Node.place).Perm (q.places P c.env) := hp.1.2
  -- The branches that stayed were evaluated before, so only the new ones decide.
  have hiff : (Formula.quantified i q body).Evaluates r P c.env ↔
      ∀ kid ∈ (Node.mk c kids).freshKids, body.Evaluates r P kid.cell.env := by
    rw [Formula.evaluates_quantified hpl]
    refine ⟨fun h kid hk => h kid (Node.mem_kids_of_mem_freshKids hk), fun h kid hk => ?_⟩
    rcases Node.mem_oldKids_or_freshKids (n := .mk c kids) hk with ho | hf
    · exact Formula.evaluates_of_found (hp.2 kid hk) (hr.found kid ho)
    · exact h kid hf
  refine Eval.Decided.congr (hx.andThen fun bs hall => ?_) hiff
  have hrec := recordBranches_append (c := c) hall
    (fun kid hk => isSome_of_places hpl kid (Node.mem_kids_of_mem_freshKids hk)) hr.truths
  exact ⟨_, (Eval.yields_ofExcept hrec).bind ((Eval.yields_ofExcept hbase).bind (Eval.yields_pure _)),
    evaluated_resting hpl hr hall rfl⟩

end Before

/-! ## After any changes -/

section Decided

variable {K : Failure → Prop} (hK : Failure.CrashClosed K)
  (hP : s.facts.pools.Keyed)

include hK hP

theorem decided_freshKids (stage : Stage) {body : Formula} {i : Nat} {q : Quantifier} {c : Cell}
    {kids : List Node}
    (hp : (Formula.quantified i q body).Every (Formula.Placed s.facts.pools) (.mk c kids))
    (hm : ∀ kid ∈ (Node.mk c kids).freshKids, body.Every Formula.Noted kid)
    (ha : (Formula.quantified i q body).Answers s.registry K s.facts.pools c.env) :
    ∀ kid ∈ (Node.mk c kids).freshKids, (s.evaluate stage none body kid).Decided K
      (body.Evaluates s.registry s.facts.pools kid.cell.env)
      (Evaluated s.registry s.facts.pools stage none body kid) := fun kid hk =>
  have hk' := Node.mem_kids_of_mem_freshKids hk
  evaluate_decided_none hK hP (hp.2 kid hk') (hm kid hk) (ha.kid hp.1.2 hk')

theorem decided_batchQuantifier {i : Nat} {q : Quantifier} {body : Formula} {c : Cell} {kids : List Node}
    (hp : (Formula.quantified i q body).Every (Formula.Placed s.facts.pools) (.mk c kids))
    (hr : (Formula.quantified i q body).Prepared s.registry s.facts.pools s.focus (.mk c kids))
    (hn : (Node.mk c kids).Calm) (ha : (Formula.quantified i q body).Answers s.registry K s.facts.pools c.env)
    (ih : ∀ {kid : Node}, body.Every (Formula.Placed s.facts.pools) kid →
      body.Prepared s.registry s.facts.pools s.focus kid → kid.Calm →
      body.Answers s.registry K s.facts.pools kid.cell.env →
      (s.reevaluateBatch stage body kid).Decided K (body.Evaluates s.registry s.facts.pools kid.cell.env)
        (Evaluated s.registry s.facts.pools stage none body kid)) :
    (s.reevaluateBatch stage (.quantified i q body) (.mk c kids)).Decided K
      ((Formula.quantified i q body).Evaluates s.registry s.facts.pools c.env)
      (Evaluated s.registry s.facts.pools stage none (.quantified i q body) (.mk c kids)) := by
  unfold reevaluateBatch
  cases haff : s.focus.affects (.quantified i q body) with
  | false => exact decided_committed hp (hr.found haff) hn
  | true =>
    rw [Formula.Prepared, haff, if_pos rfl] at hr
    obtain ⟨hfresh, hr⟩ := hr
    have hnew := decided_freshKids hK hP stage hp hfresh ha
    simp only [Bool.not_true, Bool.false_eq_true, if_false]
    cases hb : s.focus.affects body with
    | true =>
      rw [hb, if_pos rfl] at hr
      rw [if_pos rfl]
      have hvisits : ((Node.mk c kids).oldKids.map (false, ·) ++
          (Node.mk c kids).freshKids.map (true, ·)).map Prod.snd = kids := by
        rw [List.map_append, List.map_map, List.map_map]
        exact (congrArg₂ _ (List.map_id _) (List.map_id _)).trans
          (Node.mk c kids).oldKids_append_freshKids
      refine decided_branches_none hP hp.1.2 hr.2
        (s.decided_forBranches_map hK i hvisits fun visit hv => ?_)
      rcases List.mem_append.mp hv with hv | hv
      · obtain ⟨kid, hk, rfl⟩ := List.mem_map.mp hv
        have hk' := Node.mem_kids_of_mem_oldKids hk
        exact ih (hp.2 kid hk') (hr.1 kid hk) (hn.kid hk') (ha.kid hp.1.2 hk')
      · obtain ⟨kid, hk, rfl⟩ := List.mem_map.mp hv
        exact hnew kid hk
    | false =>
      rw [hb, if_neg Bool.false_ne_true] at hr
      rw [if_neg Bool.false_ne_true]
      refine decided_resting hp hr ?_ (s.decided_forBranches hK i hnew)
      split_ifs with hc
      · rw [Bool.and_eq_true, Bool.not_eq_true'] at hc
        rw [Cell.committed, show c.truth = _ from hr.committed hc.2, Truth.toBool?_ofBool]
      · refine foldBranchTruths_ok q.kind ?_ hr.truths fun kid hk => (hr.found kid hk).root.1
        exact (Formula.nodup_bounds hP hp.1.2).sublist ((List.take_sublist _ _).map _)

/-- **Incremental evaluation after a batch** finds the truth of an instance that is prepared if the
formula evaluates, and fails if it does not. -/
theorem reevaluateBatch_decided : ∀ {n : Node}, f.Every (Formula.Placed s.facts.pools) n →
    f.Prepared s.registry s.facts.pools s.focus n → n.Calm →
    f.Answers s.registry K s.facts.pools n.cell.env →
    (s.reevaluateBatch stage f n).Decided K (f.Evaluates s.registry s.facts.pools n.cell.env)
      (Evaluated s.registry s.facts.pools stage none f n) := by
  induction f with
  | quantified i q body ih =>
    rintro ⟨c, kids⟩ hp hr hn ha
    exact decided_batchQuantifier hK hP hp hr hn ha ih
  | binary i op left right ihl ihr =>
    rintro ⟨c, kids⟩ hp hr hn ha
    unfold reevaluateBatch
    cases haff : s.focus.affects (.binary i op left right) with
    | false => exact decided_committed hp (hr.found haff) hn
    | true =>
      rw [Formula.Prepared, haff, if_pos rfl] at hr
      obtain ⟨a, b, rfl, hra, hrb⟩ := hr
      obtain ⟨hpl, hpa, hpb⟩ := Formula.every_binary.mp hp
      exact decided_connect (congrArg (·.substitute none) hpl.left_env)
        (congrArg (·.substitute none) hpl.right_env)
        (ihl hpa hra (hn.kid (by simp)) (hpl.left_env ▸ ha.1))
        (ihr hpb hrb (hn.kid (by simp)) (hpl.right_env ▸ ha.2))
  | negation i body ih =>
    rintro ⟨c, kids⟩ hp hr hn ha
    unfold reevaluateBatch
    cases haff : s.focus.affects (.negation i body) with
    | false => exact decided_committed hp (hr.found haff) hn
    | true =>
      rw [Formula.Prepared, haff, if_pos rfl] at hr
      obtain ⟨a, rfl, hra⟩ := hr
      obtain ⟨hpl, hpa⟩ := Formula.every_negation.mp hp
      have ha' : body.Answers s.registry K s.facts.pools c.env := ha
      exact decided_negate (congrArg (·.substitute none) hpl.operand_env)
        (ih hpa hra (hn.kid (by simp)) (hpl.operand_env ▸ ha'))
  | application i a =>
    rintro ⟨c, kids⟩ hp hr hn ha
    exact decided_committed hp hr hn

end Decided

/-- The truth of an instance of a formula that evaluates, after a batch. -/
theorem reevaluateBatch_yields (hP : s.facts.pools.Keyed)
    (hp : f.Every (Formula.Placed s.facts.pools) n)
    (hr : f.Prepared s.registry s.facts.pools s.focus n) (hn : n.Calm)
    (he : f.Evaluates s.registry s.facts.pools n.cell.env) :
    ∃ b, (s.reevaluateBatch stage f n).Yields b ∧
      Evaluated s.registry s.facts.pools stage none f n b :=
  (reevaluateBatch_decided (K := fun _ => True) (fun _ _ => trivial) hP hp hr hn
    (Formula.answers_true ..)).yields he

end Setting

/-! ## After one addition or deletion -/

/-- An affected quantifier gained branches only if the change is an addition to its pattern, and then
it lost none. -/
def Formula.Single (change : Change) (f : Formula) (c : Cell) (_ : List Node) : Prop :=
  f.ranges [change.pattern] = true →
    match f with
    | quantified _ q _ =>
      if q.pattern = change.pattern ∧ change.kind = .addition then c.pruned = false
      else c.fresh = 0
    | _ => True

theorem Node.oldKids_of_fresh_eq_zero {n : Node} (h : n.cell.fresh = 0) : n.oldKids = n.kids := by
  rw [oldKids, h, Nat.sub_zero, List.take_length]

namespace Setting

variable {s : Setting} {f : Formula} {change : Change}

theorem evaluated_kept {r : Registry} {P : Pools} {i : Nat} {q : Quantifier} {body : Formula}
    {c : Cell} {kids : List Node} (hp : (kids.map Node.place).Perm (q.places P c.env))
    (hf : ∀ kid ∈ kids, body.Every (Formula.Found r P) kid)
    (ht : c.branchTruths = Node.stagedTruths kids) :
    Evaluated r P .commit none (.quantified i q body) (.mk c kids)
      (conclude c .commit (q.kind.fold (kids.map fun kid => body.holds r P kid.cell.env)) kids) := by
  have hall : List.Forall₂ (Evaluated r P .commit none body) kids
      (kids.map fun kid => (body.holds r P kid.cell.env, kid)) := by
    rw [List.forall₂_map_right_iff]
    exact List.forall₂_same.mpr fun kid hk => .refl (hf kid hk)
  have hsnd : (kids.map fun kid => (body.holds r P kid.cell.env, kid)).map Prod.snd = kids := by
    rw [List.map_map]
    exact List.map_id _
  have := Evaluated.quantified (i := i) (q := q) (c := c) hall
    (Formula.holds_quantified hp).symm (ht.trans (congrArg _ hsnd.symm))
  rwa [hsnd] at this

section Focus

variable {q : Quantifier} {i : Nat} {body : Formula}

/-- Over the pattern of the change, a quantifier is affected and its body is not. -/
theorem affects_body_of_eq (hfocus : s.focus = .patterns [change.pattern])
    (hq : q.pattern = change.pattern) (hd : q.pattern ∉ body.patterns) :
    s.focus.affects body = false := by
  rw [hfocus, Focus.affects, ← Bool.not_eq_true, Formula.ranges_iff]
  rintro ⟨p, hpb, hpc⟩
  rw [List.mem_singleton.mp hpc, ← hq] at hpb
  exact hd hpb

/-- Over another pattern, a quantifier is only affected if its body is. -/
theorem affects_body_of_ne (hfocus : s.focus = .patterns [change.pattern])
    (hq : q.pattern ≠ change.pattern) (ha : s.focus.affects (.quantified i q body) = true) :
    s.focus.affects body = true := by
  rw [hfocus, Focus.affects, Formula.ranges_iff] at ha ⊢
  obtain ⟨p, hpf, hpc⟩ := ha
  rcases List.mem_cons.mp hpf with rfl | hpf
  · exact absurd (List.mem_singleton.mp hpc) hq
  · exact ⟨p, hpf, hpc⟩

end Focus

/-- A quantifier that lost branches and gained none is decided by the truths noted. -/
theorem decided_kept {r : Registry} {P : Pools} {K : Failure → Prop} {i : Nat} {q : Quantifier}
    {body : Formula} {c : Cell} {kids : List Node} (hP : P.Keyed)
    (hp : (Formula.quantified i q body).Every (Formula.Placed P) (.mk c kids))
    (hf : ∀ kid ∈ kids, body.Every (Formula.Found r P) kid)
    (ht : c.branchTruths = Node.stagedTruths kids) :
    Eval.Decided K
      (do
        let truth ← Routine.ofExcept (foldBranchTruths q.kind c)
        return conclude c .commit truth kids)
      ((Formula.quantified i q body).Evaluates r P c.env)
      (Evaluated r P .commit none (.quantified i q body) (.mk c kids)) := by
  have hpl : (kids.map Node.place).Perm (q.places P c.env) := hp.1.2
  have hfold := foldBranchTruths_ok q.kind (Formula.nodup_bounds hP hpl) ht
    fun kid hk => (hf kid hk).root.1
  refine Eval.decided_of_yields ((Formula.evaluates_quantified hpl).mpr fun kid hk => ?_)
    ((Eval.yields_ofExcept hfold).bind (Eval.yields_pure _)) (evaluated_kept hpl hf ht)
  exact Formula.evaluates_of_found (hp.2 kid hk) (hf kid hk)

theorem decided_changeQuantifier {K : Failure → Prop} {i : Nat} {q : Quantifier} {body : Formula} {c : Cell}
    {kids : List Node} (hK : Failure.CrashClosed K) (hP : s.facts.pools.Keyed)
    (hfocus : s.focus = .patterns [change.pattern]) (hkind : change.kind ≠ .update)
    (hd : (Formula.quantified i q body).patterns.Nodup)
    (hp : (Formula.quantified i q body).Every (Formula.Placed s.facts.pools) (.mk c kids))
    (hs : (Formula.quantified i q body).Every (Formula.Single change) (.mk c kids))
    (hr : (Formula.quantified i q body).Prepared s.registry s.facts.pools s.focus (.mk c kids))
    (hn : (Node.mk c kids).Calm) (ha : (Formula.quantified i q body).Answers s.registry K s.facts.pools c.env)
    (ih : ∀ {kid : Node}, body.patterns.Nodup → body.Every (Formula.Placed s.facts.pools) kid →
      body.Every (Formula.Single change) kid → body.Prepared s.registry s.facts.pools s.focus kid → kid.Calm →
      body.Answers s.registry K s.facts.pools kid.cell.env →
      (s.reevaluateChange change body kid).Decided K (body.Evaluates s.registry s.facts.pools kid.cell.env)
        (Evaluated s.registry s.facts.pools .commit none body kid)) :
    (s.reevaluateChange change (.quantified i q body) (.mk c kids)).Decided K
      ((Formula.quantified i q body).Evaluates s.registry s.facts.pools c.env)
      (Evaluated s.registry s.facts.pools .commit none (.quantified i q body) (.mk c kids)) := by
  have haffects (g : Formula) : s.focus.affects g = g.ranges [change.pattern] := by
    rw [hfocus]
    rfl
  unfold reevaluateChange
  cases haff : s.focus.affects (.quantified i q body) with
  | false => exact decided_committed hp (hr.found haff) hn
  | true =>
    have hsingle : if q.pattern = change.pattern ∧ change.kind = .addition
        then c.pruned = false else c.fresh = 0 := hs.1 ((haffects _).symm.trans haff)
    rw [Formula.Prepared, haff, if_pos rfl] at hr
    obtain ⟨hfresh, hr⟩ := hr
    rw [Formula.patterns_quantified, List.nodup_cons] at hd
    simp only [Bool.not_true, Bool.false_eq_true, if_false]
    by_cases hq : q.pattern = change.pattern
    · rw [affects_body_of_eq hfocus hq hd.1, if_neg Bool.false_ne_true] at hr
      rw [if_pos hq]
      cases hk : change.kind with
      | addition =>
        simp only [hq, hk, and_self, if_true] at hsingle
        refine decided_resting hp hr ?_
          (s.decided_forBranches hK i (decided_freshKids hK hP .commit hp hfresh ha))
        rw [Cell.committed, show c.truth = _ from hr.committed hsingle, Truth.toBool?_ofBool]
      | deletion =>
        simp only [hk, reduceCtorEq, and_false, if_false] at hsingle
        have hold : (Node.mk c kids).oldKids = kids := Node.oldKids_of_fresh_eq_zero hsingle
        obtain ⟨hfound, htruths, -⟩ := hr
        rw [hold] at hfound htruths
        exact decided_kept hP hp hfound htruths
      | update => exact absurd hk hkind
    · rw [if_neg fun h => hq h.1] at hsingle
      have hold : (Node.mk c kids).oldKids = kids := Node.oldKids_of_fresh_eq_zero hsingle
      rw [affects_body_of_ne hfocus hq haff, if_pos rfl, hold] at hr
      rw [if_neg hq]
      refine decided_branches_none hP hp.1.2 hr.2 (s.decided_forBranches hK i fun kid hk => ?_)
      exact ih hd.2 (hp.2 kid hk) (hs.2 kid hk) (hr.1 kid hk) (hn.kid hk) (ha.kid hp.1.2 hk)

/-- **Incremental evaluation after one addition or deletion** finds the truth of an instance that is
prepared if the formula evaluates, and fails if it does not. -/
theorem reevaluateChange_decided {K : Failure → Prop}
    (hK : Failure.CrashClosed K) (hP : s.facts.pools.Keyed)
    (hfocus : s.focus = .patterns [change.pattern]) (hkind : change.kind ≠ .update) :
    ∀ {n : Node}, f.patterns.Nodup →
    f.Every (Formula.Placed s.facts.pools) n → f.Every (Formula.Single change) n →
    f.Prepared s.registry s.facts.pools s.focus n → n.Calm →
    f.Answers s.registry K s.facts.pools n.cell.env →
    (s.reevaluateChange change f n).Decided K (f.Evaluates s.registry s.facts.pools n.cell.env)
      (Evaluated s.registry s.facts.pools .commit none f n) := by
  induction f with
  | quantified i q body ih =>
    rintro ⟨c, kids⟩ hd hp hs hr hn ha
    exact decided_changeQuantifier hK hP hfocus hkind hd hp hs hr hn ha ih
  | binary i op left right ihl ihr =>
    rintro ⟨c, kids⟩ hd hp hs hr hn ha
    unfold reevaluateChange
    cases haff : s.focus.affects (.binary i op left right) with
    | false => exact decided_committed hp (hr.found haff) hn
    | true =>
      rw [Formula.Prepared, haff, if_pos rfl] at hr
      obtain ⟨a, b, rfl, hra, hrb⟩ := hr
      obtain ⟨hpl, hpa, hpb⟩ := Formula.every_binary.mp hp
      obtain ⟨-, hsa, hsb⟩ := Formula.every_binary.mp hs
      rw [Formula.patterns_binary] at hd
      exact decided_connect (congrArg (·.substitute none) hpl.left_env)
        (congrArg (·.substitute none) hpl.right_env)
        (ihl hd.of_append_left hpa hsa hra (hn.kid (by simp)) (hpl.left_env ▸ ha.1))
        (ihr hd.of_append_right hpb hsb hrb (hn.kid (by simp)) (hpl.right_env ▸ ha.2))
  | negation i body ih =>
    rintro ⟨c, kids⟩ hd hp hs hr hn ha
    unfold reevaluateChange
    cases haff : s.focus.affects (.negation i body) with
    | false => exact decided_committed hp (hr.found haff) hn
    | true =>
      rw [Formula.Prepared, haff, if_pos rfl] at hr
      obtain ⟨a, rfl, hra⟩ := hr
      obtain ⟨hpl, hpa⟩ := Formula.every_negation.mp hp
      obtain ⟨-, hsa⟩ := Formula.every_negation.mp hs
      have ha' : body.Answers s.registry K s.facts.pools c.env := ha
      exact decided_negate (congrArg (·.substitute none) hpl.operand_env)
        (ih hd hpa hsa hra (hn.kid (by simp)) (hpl.operand_env ▸ ha'))
  | application i a =>
    rintro ⟨c, kids⟩ hd hp hs hr hn ha
    exact decided_committed hp hr hn

/-- The truth of an instance of a formula that evaluates, after one addition or deletion. -/
theorem reevaluateChange_yields {n : Node} (hP : s.facts.pools.Keyed)
    (hfocus : s.focus = .patterns [change.pattern]) (hkind : change.kind ≠ .update)
    (hd : f.patterns.Nodup) (hp : f.Every (Formula.Placed s.facts.pools) n)
    (hs : f.Every (Formula.Single change) n)
    (hr : f.Prepared s.registry s.facts.pools s.focus n) (hn : n.Calm)
    (he : f.Evaluates s.registry s.facts.pools n.cell.env) :
    ∃ b, (s.reevaluateChange change f n).Yields b ∧
      Evaluated s.registry s.facts.pools .commit none f n b :=
  (reevaluateChange_decided (K := fun _ => True) (fun _ _ => trivial) hP hfocus hkind hd hp hs hr hn
    (Formula.answers_true ..)).yields he

end Setting

end RuleMonitor
