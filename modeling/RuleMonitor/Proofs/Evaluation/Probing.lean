import RuleMonitor.Proofs.Evaluation.Incremental
import RuleMonitor.Proofs.Evaluation.Planning
import RuleMonitor.Proofs.Instances.Rebinds
import RuleMonitor.Schedule.Probe

/-!
# What a probe finds out

A probe evaluates the branches bound to a context with another one in its place, over the instantiation
as it stands. It fails only with a predicate. If it finds a replacement, no quantifier over the pattern
can tell the contexts apart, and the replacement lists all the branches to be rebound.

* `Formula.nodesOver`: the quantifiers over a pattern.
* `Every.blind`: filters that do not look at the variable, or only at an identity that stays.
* **`Setting.probeNode_yields_or_fails`**: one quantifier.
* **`Setting.probe_yields_or_fails`**: the whole instantiation.
-/

namespace RuleMonitor

open Std (ExtTreeMap ExtTreeSet)

namespace Formula

variable {r : Registry} {K : Failure → Prop} {P : Pools} {p v : String} {old new : Context}
  {f : Formula} {n : Node} {pr : Formula → Cell → List Node → Prop}

/-! ## The quantifiers over a pattern -/

/-- The nodes of the quantifiers over a pattern. -/
def nodesOver (p : String) : Formula → Node → List Node
  | quantified _ q body, .mk c kids =>
    if q.pattern = p then [.mk c kids] else kids.flatMap (nodesOver p body)
  | binary _ _ left right, .mk _ kids =>
    match kids with
    | [a, b] => nodesOver p left a ++ nodesOver p right b
    | _ => []
  | negation _ body, .mk _ kids =>
    match kids with
    | [a] => nodesOver p body a
    | _ => []
  | application .., _ => []

theorem branchesOver_eq (f : Formula) : ∀ n : Node,
    f.branchesOver p n = (f.nodesOver p n).flatMap Node.kids := by
  induction f with
  | quantified i q body ih =>
    rintro ⟨c, kids⟩
    unfold branchesOver nodesOver
    split_ifs
    · rw [List.flatMap_singleton, Node.kids_mk]
    · rw [List.flatMap_assoc]
      exact congrArg (List.flatMap · kids) (funext ih)
  | binary i op left right ihl ihr =>
    rintro ⟨c, _ | ⟨a, _ | ⟨b, _ | ⟨d, rest⟩⟩⟩⟩
    · rfl
    · rfl
    · unfold branchesOver nodesOver
      rw [List.flatMap_append, ← ihl, ← ihr]
    · rfl
  | negation i body ih =>
    rintro ⟨c, _ | ⟨a, _ | ⟨b, rest⟩⟩⟩
    · rfl
    · exact ih a
    · rfl
  | application i a => exact fun _ => rfl

theorem Every.of_mem_nodesOver (h : f.Every pr n) : ∀ m ∈ f.nodesOver p n,
    m ∈ n.subtrees ∧ ∃ i q body, quantified i q body ∈ f.subformulas ∧ q.pattern = p ∧
      (quantified i q body).Every pr m := by
  induction f generalizing n with
  | quantified i q body ih =>
    obtain ⟨c, kids⟩ := n
    intro m hm
    unfold nodesOver at hm
    split_ifs at hm with hq
    · obtain rfl := List.mem_singleton.mp hm
      exact ⟨Node.mem_subtrees_self _, i, q, body, mem_subformulas_self _, hq, h⟩
    · obtain ⟨kid, hk, hm⟩ := List.mem_flatMap.mp hm
      obtain ⟨hsub, j, q', body', hmem, hq', he⟩ := ih (h.2 kid hk) m hm
      exact ⟨Node.mem_subtrees_of_mem_kids hk hsub, j, q', body', List.mem_cons_of_mem _ hmem,
        hq', he⟩
  | binary i op left right ihl ihr =>
    obtain ⟨c, kids⟩ := n
    obtain ⟨-, a, b, rfl, ha, hb⟩ := h
    intro m hm
    rcases List.mem_append.mp hm with hm | hm
    · obtain ⟨hsub, j, q', body', hmem, hq', he⟩ := ihl ha m hm
      exact ⟨Node.mem_subtrees_of_mem_kids List.mem_cons_self hsub, j, q', body',
        List.mem_cons_of_mem _ (List.mem_append_left _ hmem), hq', he⟩
    · obtain ⟨hsub, j, q', body', hmem, hq', he⟩ := ihr hb m hm
      exact ⟨Node.mem_subtrees_of_mem_kids (List.mem_cons_of_mem _ List.mem_cons_self) hsub, j, q',
        body', List.mem_cons_of_mem _ (List.mem_append_right _ hmem), hq', he⟩
  | negation i body ih =>
    obtain ⟨c, kids⟩ := n
    obtain ⟨-, a, rfl, ha⟩ := h
    intro m hm
    obtain ⟨hsub, j, q', body', hmem, hq', he⟩ := ih ha m hm
    exact ⟨Node.mem_subtrees_of_mem_kids List.mem_cons_self hsub, j, q', body',
      List.mem_cons_of_mem _ hmem, hq', he⟩
  | application i a => exact fun _ hm => absurd hm List.not_mem_nil

/-- What holds of the quantifiers over the pattern is all that is to be probed. -/
theorem Every.probed (h : f.Every pr n) : f.patterns.Nodup →
    (∀ m ∈ f.nodesOver p n, ∀ i q body, quantified i q body ∈ f.subformulas → q.pattern = p →
      (quantified i q body).Probed r P p v old new m.cell m.kids) →
    f.Every (Probed r P p v old new) n := by
  induction f generalizing n with
  | quantified i q body ih =>
    obtain ⟨c, kids⟩ := n
    intro hd hm
    rw [patterns_quantified, List.nodup_cons] at hd
    unfold nodesOver at hm
    by_cases hq : q.pattern = p
    · rw [if_pos hq] at hm
      refine ⟨hm _ List.mem_cons_self i q body (mem_subformulas_self _) hq, fun kid hk => ?_⟩
      refine (h.2 kid hk).imp fun g hg m _ _ => ?_
      cases g with
      | quantified j q' body' =>
        intro hq'
        have hmem : q'.pattern ∈ body.patterns := patterns_subset hg List.mem_cons_self
        exact absurd (hq'.trans hq.symm ▸ hmem) hd.1
      | binary j op left right | negation j body' | application j a => exact trivial
    · rw [if_neg hq] at hm
      refine ⟨fun e => absurd e hq, fun kid hk => ih (h.2 kid hk) hd.2 fun m hmk => ?_⟩
      intro j q' body' hmem
      exact hm m (List.mem_flatMap.mpr ⟨kid, hk, hmk⟩) j q' body' (List.mem_cons_of_mem _ hmem)
  | binary i op left right ihl ihr =>
    obtain ⟨c, kids⟩ := n
    obtain ⟨-, a, b, rfl, ha, hb⟩ := h
    intro hd hm
    rw [patterns_binary, List.nodup_append] at hd
    refine ⟨trivial, a, b, rfl, ihl ha hd.1 fun m hmk j q' body' hmem => ?_,
      ihr hb hd.2.1 fun m hmk j q' body' hmem => ?_⟩
    · exact hm m (List.mem_append_left _ hmk) j q' body'
        (List.mem_cons_of_mem _ (List.mem_append_left _ hmem))
    · exact hm m (List.mem_append_right _ hmk) j q' body'
        (List.mem_cons_of_mem _ (List.mem_append_right _ hmem))
  | negation i body ih =>
    obtain ⟨c, kids⟩ := n
    obtain ⟨-, a, rfl, ha⟩ := h
    intro hd hm
    exact ⟨trivial, a, rfl, ih ha hd fun m hmk j q' body' hmem =>
      hm m hmk j q' body' (List.mem_cons_of_mem _ hmem)⟩
  | application i a =>
    obtain ⟨c, kids⟩ := n
    exact fun _ _ => ⟨trivial, h.2⟩

/-- The formula is a quantifier over the pattern. -/
def rangesOver (p : String) (f : Formula) : Bool :=
  f.quantifier?.any fun q => q.pattern = p

theorem filter_cells_eq {isOver : Cell → Bool}
    (h : f.Every (fun g c _ => isOver c = g.rangesOver p) n) (hd : f.patterns.Nodup) :
    n.cells.filter isOver = (f.nodesOver p n).map Node.cell := by
  induction f generalizing n with
  | quantified i q body ih =>
    obtain ⟨c, kids⟩ := n
    rw [patterns_quantified, List.nodup_cons] at hd
    have hc : isOver c = decide (q.pattern = p) := h.1
    rw [Node.cells_mk]
    unfold nodesOver
    by_cases hq : q.pattern = p
    · have hkids : (kids.flatMap Node.cells).filter isOver = [] := by
        refine List.filter_eq_nil_iff.mpr fun c' hc' hover => ?_
        obtain ⟨kid, hk, hck⟩ := List.mem_flatMap.mp hc'
        rw [← Node.map_cell_subtrees] at hck
        obtain ⟨m, hm, rfl⟩ := List.mem_map.mp hck
        obtain ⟨g, hg, he⟩ := (h.2 kid hk).exists_of_mem m hm
        rw [he] at hover
        cases g with
        | quantified j q' body' =>
          have hq' : q'.pattern = p := of_decide_eq_true hover
          have hmem : q'.pattern ∈ body.patterns := patterns_subset hg List.mem_cons_self
          exact hd.1 (hq'.trans hq.symm ▸ hmem)
        | binary j op left right | negation j body' | application j a =>
          exact Bool.false_ne_true hover
      rw [if_pos hq, List.filter_cons_of_pos (hc.trans (decide_eq_true hq)), hkids]
      rfl
    · rw [if_neg hq, List.filter_cons_of_neg (by rw [hc]; simpa using hq), List.filter_flatMap,
        List.map_flatMap]
      exact List.flatMap_congr fun kid hk => ih (h.2 kid hk) hd.2
  | binary i op left right ihl ihr =>
    obtain ⟨c, kids⟩ := n
    obtain ⟨hc, a, b, rfl, ha, hb⟩ := h
    rw [patterns_binary, List.nodup_append] at hd
    have hc : isOver c = false := hc
    rw [Node.cells_mk, List.filter_cons_of_neg (by rw [hc]; exact Bool.false_ne_true)]
    unfold nodesOver
    rw [List.flatMap_cons, List.flatMap_cons, List.flatMap_nil, List.append_nil, List.filter_append,
      ihl ha hd.1, ihr hb hd.2.1, List.map_append]
  | negation i body ih =>
    obtain ⟨c, kids⟩ := n
    obtain ⟨hc, a, rfl, ha⟩ := h
    have hc : isOver c = false := hc
    rw [Node.cells_mk, List.filter_cons_of_neg (by rw [hc]; exact Bool.false_ne_true)]
    unfold nodesOver
    rw [List.flatMap_cons, List.flatMap_nil, List.append_nil, ih ha hd]
  | application i a =>
    obtain ⟨c, kids⟩ := n
    obtain ⟨hc, rfl⟩ := h
    have hc : isOver c = false := hc
    rw [Node.cells_mk, List.filter_cons_of_neg (by rw [hc]; exact Bool.false_ne_true)]
    rfl

/-! ## Environments below a branch -/

/-- A variable that no quantifier binds has the same value at all nodes. -/
theorem Every.lookup (h : f.Every (Placed P) n) (hv : v ∉ f.vars) :
    f.Every (fun _ c _ => c.env[v]? = n.cell.env[v]?) n := by
  induction f generalizing n with
  | quantified i q body ih =>
    obtain ⟨c, kids⟩ := n
    rw [vars_quantified, List.mem_cons, not_or] at hv
    refine ⟨rfl, fun kid hk => ?_⟩
    obtain ⟨x, -, -, he⟩ := exists_of_places h.1.2 hk
    have hkid : kid.cell.env[v]? = c.env[v]? := by
      rw [he, Quantifier.bind, Map.getElem?_insert, if_neg fun e => hv.1 e.symm]
    exact hkid ▸ ih (h.2 kid hk) hv.2
  | binary i op left right ihl ihr =>
    obtain ⟨c, kids⟩ := n
    obtain ⟨hp, a, b, rfl, ha, hb⟩ := h
    rw [vars_binary, List.mem_append, not_or] at hv
    have hea : a.cell.env = c.env := hp.left_env
    have heb : b.cell.env = c.env := hp.right_env
    exact ⟨rfl, a, b, rfl, hea ▸ ihl ha hv.1, heb ▸ ihr hb hv.2⟩
  | negation i body ih =>
    obtain ⟨c, kids⟩ := n
    obtain ⟨hp, a, rfl, ha⟩ := h
    have hea : a.cell.env = c.env := hp.operand_env
    exact ⟨rfl, a, rfl, hea ▸ ih ha hv⟩
  | application i a =>
    obtain ⟨c, kids⟩ := n
    exact ⟨rfl, h.2⟩

/-- Wherever at least the variables of a node are bound, its formula answers. -/
def Ready (r : Registry) (K : Failure → Prop) (P : Pools) (f : Formula) (c : Cell) (_ : List Node) :
    Prop :=
  ∀ env : Env, (∀ w, c.env.contains w = true → env.contains w = true) → f.Answers r K P env

theorem Every.ready (hd : r.FailsIn K f) (h : f.Every (Placed P) n) : ∀ {scope : List String},
    f.Scoped scope → (∀ w ∈ scope, n.cell.env.contains w = true) → f.Every (Ready r K P) n := by
  induction f generalizing n with
  | quantified i q body ih =>
    obtain ⟨c, kids⟩ := n
    intro scope hs hscope
    refine ⟨fun env henv => answers_of_failsIn hd hs fun w hw => henv w (hscope w hw),
      fun kid hk => ih hd (h.2 kid hk) hs.2.2 ?_⟩
    obtain ⟨x, -, -, he⟩ := exists_of_places h.1.2 hk
    rw [he]
    exact Quantifier.contains_bind hscope x
  | binary i op left right ihl ihr =>
    obtain ⟨c, kids⟩ := n
    obtain ⟨hp, a, b, rfl, ha, hb⟩ := h
    intro scope hs hscope
    have hea : a.cell.env = c.env := hp.left_env
    have heb : b.cell.env = c.env := hp.right_env
    refine ⟨fun env henv => answers_of_failsIn hd hs fun w hw => henv w (hscope w hw), a, b, rfl,
      ihl (fun a ha => hd a (List.mem_append_left _ ha)) ha hs.1 (hea ▸ hscope),
      ihr (fun a ha => hd a (List.mem_append_right _ ha)) hb hs.2 (heb ▸ hscope)⟩
  | negation i body ih =>
    obtain ⟨c, kids⟩ := n
    obtain ⟨hp, a, rfl, ha⟩ := h
    intro scope hs hscope
    have hea : a.cell.env = c.env := hp.operand_env
    exact ⟨fun env henv => answers_of_failsIn hd hs fun w hw => henv w (hscope w hw), a, rfl,
      ih hd ha hs (hea ▸ hscope)⟩
  | application i a =>
    obtain ⟨c, kids⟩ := n
    intro scope hs hscope
    exact ⟨fun env henv => answers_of_failsIn hd hs fun w hw => henv w (hscope w hw), h.2⟩

/-- Filters do not see a variable read as another context, unless one depends on it and the identity is
another one. -/
theorem Every.blind (h : f.Every (Placed P) n) (hv : v ∉ f.vars) {x : Context}
    (hx : n.cell.env[v]? = some x)
    (hf : x.id = new.id ∨ ∀ q ∈ f.quantifiers, ∀ filter ∈ q.filter, filter.dep ≠ v) :
    f.Every (Blind v new) n := by
  refine (h.lookup hv).imp fun g hg m _ hm => ?_
  cases g with
  | quantified i q body =>
    intro y
    unfold Quantifier.admits
    cases hq : q.filter with
    | none => rfl
    | some filter =>
      obtain ⟨dep⟩ := filter
      unfold Filter.admits
      dsimp only
      rw [Map.getElem?_insert]
      by_cases hdep : v = dep
      · have hid := hf.resolve_right fun hf =>
          hf q (quantifiers_subset hg List.mem_cons_self) _ hq hdep.symm
        rw [if_pos hdep, ← hdep, hm, hx]
        dsimp only
        rw [hid]
      · rw [if_neg hdep]
  | binary i op left right | negation i body | application i a => exact trivial

/-- **Nothing moved** below a branch where all truths stayed as they are. -/
theorem Every.unmoved (hc : n.Calm) (hf : f.Every (Found r P) n) {b : Bool × Node}
    (hb : Evaluated r P .hold (some ⟨v, new⟩) f n b) (hu : Setting.unmoved b.2 = true) :
    f.Every (Unmoved r P v new) n := by
  have houter := hb.traced.held rfl
  have htruth : f.Every (fun g c _ => c.truth = .ofBool (g.holds r P c.env)) n :=
    hf.imp fun g _ m hm h => (h.2.1 (hc m.cell (Node.cell_mem_cells_of_mem hm))).trans h.1
  have hbefore : f.Every (fun g c _ => c.truth = .ofBool (g.holds r P c.env)) b.2 := by
    refine htruth.of_map (fun g c c' _ _ e _ h => ?_) houter.symm
    rw [show c'.truth = c.truth from (congrArg Cell.truth e :).symm,
      show c'.env = c.env from (congrArg Cell.env e :).symm]
    exact h
  have hafter : f.Every (fun g c _ => c.staged = .ofBool (g.holds r P (c.env.insert v new)) ∧
      ∀ i a, g = application i a → ∃ t, r.eval a (c.env.insert v new) none = .ok t) b.2 := by
    refine hb.found.of_map (g := id) (fun g c c' _ _ e _ h => ⟨?_, fun i a hg => ?_⟩)
      (Node.map_map ..)
    · cases e
      exact h.1
    · cases e
      subst hg
      exact h.2.2
  have hmoved : f.Every (Unmoved r P v new) b.2 := by
    refine (hbefore.and hafter).imp fun g _ m hm h => ?_
    have hstay : m.cell.staged = m.cell.truth :=
      of_decide_eq_true (List.all_eq_true.mp hu m.cell (Node.cell_mem_cells_of_mem hm))
    have heq := congrArg Truth.toBool? (h.2.1.symm.trans (hstay.trans h.1))
    rw [Truth.toBool?_ofBool, Truth.toBool?_ofBool, Option.some.injEq] at heq
    refine ⟨heq, ?_⟩
    cases g with
    | application i a => exact h.2.2 i a rfl
    | quantified i q body | binary i op left right | negation i body => exact trivial
  refine hmoved.of_map (fun g c c' _ _ e _ h => ?_) houter
  unfold Unmoved
  rw [show c'.env = c.env from (congrArg Cell.env e :).symm]
  exact h

theorem Every.noted_of_found (h : f.Every (Found r P) n) : f.Every Noted n := by
  refine h.imp fun g _ m _ hm => ?_
  cases g with
  | quantified i q body =>
    intro id hid
    rw [show m.cell.branchTruths = Node.stagedTruths m.kids from hm.2.2] at hid
    exact Node.mem_of_contains_stagedTruths hid
  | binary i op left right | negation i body | application i a => exact trivial

theorem boundTo_iff {q : Quantifier} {env : Env} {kids : List Node} {kid : Node} {id : Nat}
    (h : (kids.map Node.place).Perm (q.places P env)) (hk : kid ∈ kids) :
    boundTo id kid = true ↔ kid.cell.bound.getD 0 = id := by
  obtain ⟨x, -, hx, -⟩ := exists_of_places h hk
  rw [boundTo, decide_eq_true_iff, hx, Option.some.injEq, Option.getD_some]

end Formula

/-! ## Probes -/

namespace Setting

open Formula

variable {s : Setting} {K : Failure → Prop} {q : Quantifier} {body : Formula} {del add : Context}
  {i : Nat} {m : Node}

section Branch

variable {c : Cell} {kids : List Node} {branch : Node}

/-- The branch bound to a context does not see another one that is read for its variable. -/
theorem blind_branch {P : Pools} (hv : q.var ∉ body.vars)
    (hfilter : del.id = add.id ∨ ∀ q' ∈ body.quantifiers, ∀ filter ∈ q'.filter, filter.dep ≠ q.var)
    (hp : (quantified i q body).Every (Placed P) (.mk c kids)) (hk : branch ∈ kids)
    (hb : boundTo del.id branch = true) : body.Every (Blind q.var add) branch := by
  obtain ⟨x, -, hx, he⟩ := exists_of_places hp.1.2 hk
  have hid : x.id = del.id := Option.some.inj (hx.symm.trans (of_decide_eq_true hb))
  have hlook : branch.cell.env[q.var]? = some x := by
    rw [he, Quantifier.bind, ExtTreeMap.getElem?_insert_self]
  exact (hp.2 branch hk).blind hv hlook (hfilter.imp_left hid.trans)

/-- **The branch bound to a context**, evaluated with another one read for its variable: if nothing
moves below it, it is unmoved. -/
theorem probe_branch (hK : Failure.CrashClosed K) (hP : s.facts.pools.Keyed)
    (hv : q.var ∉ body.vars) (hp : body.Every (Placed s.facts.pools) branch)
    (hf : body.Every (Found s.registry s.facts.pools) branch)
    (hr : body.Every (Ready s.registry K s.facts.pools) branch) (hc : branch.Calm)
    (hblind : body.Every (Blind q.var add) branch) :
    (∃ b, (s.evaluate .hold (some ⟨q.var, add⟩) body branch).Yields b ∧
      (unmoved b.2 = true → body.Every (Unmoved s.registry s.facts.pools q.var add) branch)) ∨
      (s.evaluate .hold (some ⟨q.var, add⟩) body branch).Fails K := by
  have hplaced : body.Every (Placed s.facts.pools)
      (branch.map (Cell.substitute (some ⟨q.var, add⟩))) :=
    Every.map ((hp.and hblind).imp fun g hg m _ h =>
      h.1.substitute (fun hm => hv (vars_subset hg hm)) h.2)
  have hanswers : body.Answers s.registry K s.facts.pools (branch.cell.env.insert q.var add) :=
    hr.root _ fun w hw => by rw [ExtTreeMap.contains_insert, hw, Bool.or_true]
  have hdecided : (s.evaluate .hold (some ⟨q.var, add⟩) body branch).Decided K
      (body.Evaluates s.registry s.facts.pools (branch.cell.env.insert q.var add)) fun b =>
        unmoved b.2 = true → body.Every (Unmoved s.registry s.facts.pools q.var add) branch :=
    (evaluate_decided hK hP hplaced hf.noted_of_found hanswers).imp fun b hev => hf.unmoved hc hev
  exact (em _).imp hdecided.yields hdecided.fails

theorem filter_boundTo {P : Pools} (hP : P.Keyed) {env : Env} {id : Nat}
    (h : (kids.map Node.place).Perm (q.places P env)) (hk : branch ∈ kids)
    (hb : boundTo id branch = true) : kids.filter (boundTo id) = [branch] := by
  rw [← filter_eq_singleton (nodup_bounds hP h) hk]
  refine List.filter_congr fun kid hkid => ?_
  rw [Bool.eq_iff_iff, boundTo_iff h hkid, decide_eq_true_iff, (boundTo_iff h hk).mp hb]

end Branch

/-- **The probe of a quantifier** over the pattern. If it does not stop, the node cannot tell the
contexts apart, and the answer are the branches bound to the first one. -/
theorem probeNode_yields_or_fails (hK : Failure.CrashClosed K)
    (hP : s.facts.pools.Keyed) (hlive : s.facts.pools.live? q.pattern del.id = some del)
    (hv : q.var ∉ body.vars)
    (hfilter : del.id = add.id ∨ ∀ q' ∈ body.quantifiers, ∀ filter ∈ q'.filter, filter.dep ≠ q.var)
    (hp : (quantified i q body).Every (Placed s.facts.pools) m)
    (hf : (quantified i q body).Every (Found s.registry s.facts.pools) m)
    (hr : (quantified i q body).Every (Ready s.registry K s.facts.pools) m) (hc : m.Calm) :
    (∃ o, (s.probeNode q body del add m).Yields o ∧ ∀ found, o = some found →
      (quantified i q body).Probed s.registry s.facts.pools q.pattern q.var del add m.cell m.kids ∧
      found = (m.kids.filter (boundTo del.id)).map Node.index) ∨
      (s.probeNode q body del add m).Fails K := by
  obtain ⟨c, kids⟩ := m
  have hplaces : (kids.map Node.place).Perm (q.places s.facts.pools c.env) := hp.1.2
  unfold probeNode
  by_cases ha : q.admits c.env del = q.admits c.env add
  · rw [Node.cell_mk, if_neg (not_not.mpr ha)]
    obtain ⟨branch, hbr, hbm⟩ := branchOf_ok hP hplaces hlive
    have hbound : ∀ kid, kid ∈ branch ↔ kid ∈ kids ∧ boundTo del.id kid = true := fun kid =>
      (hbm kid).trans (and_congr_right fun hk => (boundTo_iff hplaces hk).symm)
    cases branch with
    | none =>
      refine .inl ⟨some [], (Eval.yields_ofExcept hbr).bind (Eval.yields_pure _), fun found h => ?_⟩
      cases h
      have hnone : ∀ kid ∈ kids, ¬boundTo del.id kid = true := fun kid hk hb => by
        cases (hbound kid).mpr ⟨hk, hb⟩
      refine ⟨fun _ => ⟨ha, fun kid hk hb => absurd (decide_eq_true hb) (hnone kid hk)⟩, ?_⟩
      rw [Node.kids_mk, List.filter_eq_nil_iff.mpr hnone, List.map_nil]
    | some branch =>
      obtain ⟨hk, hb⟩ := (hbound branch).mp rfl
      have hblind := blind_branch hv hfilter hp hk hb
      rcases probe_branch hK hP hv (hp.2 branch hk) (hf.2 branch hk) (hr.2 branch hk) (hc.kid hk)
        hblind with ⟨b, hy, hunmoved⟩ | hfails
      · refine .inl ⟨_, (Eval.yields_ofExcept hbr).bind (hy.bind (Eval.yields_pure _)),
          fun found h => ?_⟩
        split_ifs at h with hu
        cases h
        refine ⟨fun _ => ⟨ha, fun kid hkid hkb => ?_⟩, ?_⟩
        · obtain rfl : kid = branch :=
            (Option.some.inj ((hbound kid).mpr ⟨hkid, decide_eq_true hkb⟩)).symm
          exact ⟨hunmoved hu, hblind⟩
        · rw [Node.kids_mk, filter_boundTo hP hplaces hk hb]
          rfl
      · exact .inr ((Eval.yields_ofExcept hbr).bind_fails (hfails.bind _))
  · rw [Node.cell_mk, if_pos ha]
    exact .inl ⟨none, Eval.yields_pure none, fun _ h => by cases h⟩

theorem probeNodes_yields_or_fails {t : Tree} (body : Formula) (del add : Context)
    {g : Node → List Nat} {p : Node → Prop} :
    ∀ ms : List Node, (∀ m ∈ ms, t.find? m.index = some m) →
    (∀ m ∈ ms, (∃ o, (s.probeNode q body del add m).Yields o ∧
      ∀ found, o = some found → p m ∧ found = g m) ∨ (s.probeNode q body del add m).Fails K) →
    (∃ o, (s.probeNodes t q body del add (ms.map Node.index)).Yields o ∧
      ∀ found, o = some found → (∀ m ∈ ms, p m) ∧ found = ms.flatMap g) ∨
      (s.probeNodes t q body del add (ms.map Node.index)).Fails K := by
  intro ms
  induction ms with
  | nil =>
    exact fun _ _ =>
      .inl ⟨some [], Eval.yields_pure _, fun found h => by cases h; exact ⟨nofun, rfl⟩⟩
  | cons m ms ih =>
    intro hfind hprobe
    rw [List.forall_mem_cons] at hfind hprobe
    have haccess : t.access m.index = .ok m := by
      unfold Tree.access
      rw [hfind.1]
    rw [List.map_cons]
    unfold probeNodes
    rcases hprobe.1 with ⟨o, hy, ho⟩ | hfails
    · cases o with
      | none =>
        exact .inl ⟨none, (Eval.yields_ofExcept haccess).bind (hy.bind (Eval.yields_pure _)), nofun⟩
      | some found =>
        obtain ⟨hm, rfl⟩ := ho found rfl
        rcases ih hfind.2 hprobe.2 with ⟨o', hy', ho'⟩ | hfails
        · cases o' with
          | none =>
            exact .inl ⟨none, (Eval.yields_ofExcept haccess).bind
              (hy.bind (hy'.bind (Eval.yields_pure _))), nofun⟩
          | some more =>
            obtain ⟨hms, rfl⟩ := ho' more rfl
            refine .inl ⟨some (g m ++ ms.flatMap g), (Eval.yields_ofExcept haccess).bind
              (hy.bind (hy'.bind (Eval.yields_pure _))), fun found h => ?_⟩
            cases h
            exact ⟨List.forall_mem_cons.mpr ⟨hm, hms⟩, (List.flatMap_cons).symm⟩
        · exact .inr ((Eval.yields_ofExcept haccess).bind_fails (hy.bind_fails (hfails.bind _)))
    · exact .inr ((Eval.yields_ofExcept haccess).bind_fails (hfails.bind _))

theorem nodesOver_eq (t : Tree) (s : Sentence) (p : String) : t.nodesOver s p =
    (ExtTreeSet.ofList ((t.cells.filter fun c =>
      (s.quantifierAt? c.formula).any (·.pattern = p)).map (·.index))).toList := by
  refine congrArg (fun l : List Cell => (ExtTreeSet.ofList (l.map (·.index))).toList)
    (List.filter_congr fun c _ => ?_)
  cases s.quantifierAt? c.formula <;> rfl

theorem nodesOver_perm {s : Sentence} {P : Pools} {t : Tree} {n : Node} (hs : s.WellFormed)
    (ht : t.root = some n) (hd : n.indices.Nodup) (hp : s.formula.Every (Placed P) n) (p : String) :
    (t.nodesOver s p).Perm ((s.formula.nodesOver p n).map Node.index) := by
  have hover : s.formula.Every (fun g c _ =>
      (s.quantifierAt? c.formula).any (·.pattern = p) = g.rangesOver p) n := by
    refine hp.imp fun g hg m _ hm => ?_
    rw [Sentence.quantifierAt?, hm.1, (hs.read.of_mem hg).quantifier?_eq]
    cases g <;> rfl
  have hcells := filter_cells_eq hover hs.patterns
  have hslots : ((n.cells.filter fun c =>
      (s.quantifierAt? c.formula).any (·.pattern = p)).map (·.index)).Nodup :=
    hd.sublist (List.filter_sublist.map _)
  have hmap := congrArg (List.map (·.index)) hcells
  rw [List.map_map] at hmap
  rw [nodesOver_eq, Tree.cells, ht]
  exact (Lists.sorted_perm hslots).trans (List.Perm.of_eq hmap)

end Setting

/-- A replacement that no truth of the instantiation observes, with all branches to be rebound. -/
structure Replacement.Fits (r : Replacement) (reg : Registry) (P : Pools) (s : Sentence) (n : Node) :
    Prop where
  rule : r.rule = s.rule
  binds : s.formula.Binds r.pattern r.var
  probed : s.formula.Every (Formula.Probed reg P r.pattern r.var r.del r.add) n
  branches : r.branches.Perm
    (((s.formula.branchesOver r.pattern n).filter (Formula.boundTo r.del.id)).map Node.index)

namespace Setting

open Formula

variable {s : Setting} {K : Failure → Prop} {del add : Context} {t : Tree} {n : Node}

/-- What the probes of the quantifiers over a pattern found fits, if none of them stopped. -/
theorem fits_of_probed {i : Nat} {q : Quantifier} {body : Formula} {ms : List Node}
    {r : Replacement} (hs : s.sentence.WellFormed)
    (hmem : quantified i q body ∈ s.sentence.formula.subformulas)
    (hp : s.sentence.formula.Every (Placed s.facts.pools) n)
    (hperm : ms.Perm (s.sentence.formula.nodesOver q.pattern n))
    (hprobed : ∀ m ∈ ms, (quantified i q body).Probed s.registry s.facts.pools q.pattern q.var r.del
      r.add m.cell m.kids)
    (hrule : r.rule = s.sentence.rule) (hpattern : r.pattern = q.pattern) (hvar : r.var = q.var)
    (hbranches : r.branches = ms.flatMap fun m =>
      (m.kids.filter (boundTo r.del.id)).map Node.index) :
    r.Fits s.registry s.facts.pools s.sentence n where
  rule := hrule
  binds q' hq' := by
    have hqm : q ∈ s.sentence.formula.quantifiers := quantifiers_subset hmem List.mem_cons_self
    rw [hpattern, hvar]
    constructor
    · exact fun e => congrArg _ (List.inj_on_of_nodup_map hs.patterns hq' hqm e)
    · exact fun e => congrArg _ (List.inj_on_of_nodup_map hs.vars hq' hqm e)
  probed := by
    rw [hpattern, hvar]
    refine hp.probed hs.patterns fun m hm j q' body' hmem' hq' => ?_
    rw [eq_of_pattern_eq hs.patterns hmem' hmem hq']
    exact hprobed m (hperm.mem_iff.mpr hm)
  branches := by
    rw [hpattern, hbranches, branchesOver_eq, List.filter_flatMap, List.map_flatMap]
    exact hperm.flatMap_right _

variable (add) in
/-- **A probe succeeds or fails with a predicate**, and a replacement that it finds fits. -/
theorem probe_yields_or_fails (hK : Failure.CrashClosed K)
    (hs : s.sentence.WellFormed) (hd : s.registry.FailsIn K s.sentence.formula)
    (hP : s.facts.pools.Keyed) (ht : t.root = some n) (hn : n.indices.Nodup)
    (hp : s.sentence.formula.Every (Placed s.facts.pools) n)
    (hf : s.sentence.formula.Every (Found s.registry s.facts.pools) n) (hc : n.Calm) {p : String}
    (hlive : s.facts.pools.live? p del.id = some del) :
    (∃ o, (s.probe t p del add).Yields o ∧ ∀ r, o = some r → r.pattern = p ∧ r.del = del ∧
      r.add = add ∧ r.Fits s.registry s.facts.pools s.sentence n) ∨
      (s.probe t p del add).Fails K := by
  unfold probe
  cases hq : (s.sentence.quantifierOf? p).bind (Formula.at? · s.sentence.formula) with
  | none => exact .inl ⟨none, Eval.yields_pure none, nofun⟩
  | some g =>
    cases g with
    | binary i op left right | negation i body | application i a =>
      exact .inl ⟨none, Eval.yields_pure none, nofun⟩
    | quantified i q body =>
      obtain ⟨hmem, rfl⟩ := hs.quantifierOf? hq
      dsimp only
      by_cases hobs : (decide (del.id ≠ add.id) && s.sentence.filterDependsOn q.var) = true
      · rw [if_pos hobs]
        exact .inl ⟨none, Eval.yields_pure none, nofun⟩
      rw [if_neg hobs]
      have hfilter : del.id = add.id ∨
          ∀ q' ∈ s.sentence.formula.quantifiers, ∀ filter ∈ q'.filter, filter.dep ≠ q.var := by
        by_cases hid : del.id = add.id
        · exact .inl hid
        · rw [decide_eq_true hid, Bool.true_and, Bool.not_eq_true] at hobs
          exact .inr (hs.dep_ne hobs)
      have hvars : q.var ∉ body.vars :=
        (List.nodup_cons.mp (hs.vars.sublist ((quantifiers_sublist hmem).map _))).1
      have hready := hp.ready hd hs.inScope nofun
      obtain ⟨ms, hms, hperm⟩ := Lists.exists_map_of_perm (nodesOver_perm hs ht hn hp q.pattern)
      have hnode : ∀ m ∈ ms, m ∈ n.subtrees ∧
          (quantified i q body).Every (fun g c kids => (g.Placed s.facts.pools c kids ∧
            g.Found s.registry s.facts.pools c kids) ∧ g.Ready s.registry K s.facts.pools c kids) m := by
        intro m hm
        obtain ⟨hsub, j, q', body', hmem', hq', he⟩ :=
          ((hp.and hf).and hready).of_mem_nodesOver m (hperm.mem_iff.mp hm)
        exact ⟨hsub, eq_of_pattern_eq hs.patterns hmem' hmem hq' ▸ he⟩
      have hprobes := probeNodes_yields_or_fails (s := s) (K := K) (q := q) (t := t) body
        del add (g := fun m => (m.kids.filter (boundTo del.id)).map Node.index)
        (p := fun m => (quantified i q body).Probed s.registry s.facts.pools q.pattern q.var del
          add m.cell m.kids) ms
        (fun m hm => by
          rw [Tree.find?, ht]
          exact Node.find?_of_mem hn (hnode m hm).1)
        (fun m hm => by
          obtain ⟨hsub, he⟩ := hnode m hm
          exact probeNode_yields_or_fails hK hP hlive hvars
            (hfilter.imp_right fun h q' hq' => h q' (quantifiers_subset hmem
              (List.mem_cons_of_mem _ hq')))
            (he.imp fun _ _ _ _ h => h.1.1) (he.imp fun _ _ _ _ h => h.1.2)
            (he.imp fun _ _ _ _ h => h.2) fun c hcm => hc c (Node.cells_subset_of_mem hsub hcm))
      rw [hms]
      rcases hprobes with ⟨o, hy, ho⟩ | hfails
      · match o with
        | none | some [] => exact .inl ⟨none, hy.bind (Eval.yields_pure none), nofun⟩
        | some (b :: bs) =>
          obtain ⟨hprobed, hfound⟩ := ho _ rfl
          refine .inl ⟨_, hy.bind (Eval.yields_pure _), fun r hr => ?_⟩
          cases hr
          exact ⟨rfl, rfl, rfl, fits_of_probed hs hmem hp hperm hprobed rfl rfl rfl hfound⟩
      · exact .inr (hfails.bind _)

end Setting

end RuleMonitor
