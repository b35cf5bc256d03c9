import RuleMonitor.Proofs.Evaluation.Exchanging
import RuleMonitor.Proofs.Evaluation.Full

/-!
# Instances after an exchange

When one context takes the place of another, the branches bound to it are bound to the other instead,
with the variable read as the other in all environments below. If no truth below depends on that, the
result is an instance over the pools after the exchange, with the truths it had, and with its links
renamed.

* `Formula.Unmoved`, `Formula.Blind`: a node does not depend on what a variable is read as.
* `Formula.Probed`: no quantifier over the pattern can tell the contexts apart.
* `Formula.replaced`: the tree with some branches rebound.
* **`Formula.exchanged_replaced`**: the instance after an exchange.
-/

namespace RuleMonitor

open Std (ExtTreeMap ExtTreeSet)

/-- The branch bound to another context, read for its variable. -/
def Node.rebound (v : String) (new : Context) (n : Node) : Node :=
  (n.map (Cell.substitute (some ⟨v, new⟩))).onCell fun c => { c with bound := some new.id }

namespace Formula

variable {r : Registry} {P : Pools} {p v : String} {old new : Context} {f body : Formula} {n : Node}

/-- Reading the context for the variable does not move the truth of the node, and no predicate fails
for it. -/
def Unmoved (r : Registry) (P : Pools) (v : String) (new : Context) (f : Formula) (c : Cell)
    (_ : List Node) : Prop :=
  f.holds r P (c.env.insert v new) = f.holds r P c.env ∧
    match f with
    | application _ a => ∃ b, r.eval a (c.env.insert v new) none = .ok b
    | _ => True

/-- Reading the context for the variable does not move what the node ranges over. -/
def Blind (v : String) (new : Context) (f : Formula) (c : Cell) (_ : List Node) : Prop :=
  match f with
  | quantified _ q _ => ∀ x, q.admits (c.env.insert v new) x = q.admits c.env x
  | _ => True

/-- The quantifier over the pattern admits both contexts or neither, and nothing moves below the branch
bound to the old one. -/
def Probed (r : Registry) (P : Pools) (p v : String) (old new : Context) (f : Formula) (c : Cell)
    (kids : List Node) : Prop :=
  match f with
  | quantified _ q body => q.pattern = p →
    q.admits c.env old = q.admits c.env new ∧ ∀ kid ∈ kids, kid.cell.bound = some old.id →
      body.Every (Unmoved r P v new) kid ∧ body.Every (Blind v new) kid
  | _ => True

theorem insert_comm {env : Env} {w : String} {x : Context} (h : v ≠ w) :
    (env.insert w x).insert v new = (env.insert v new).insert w x := by
  refine ExtTreeMap.ext_getElem? fun {u} => ?_
  rw [Map.getElem?_insert, Map.getElem?_insert, Map.getElem?_insert, Map.getElem?_insert]
  split_ifs with hv hw hw
  · exact absurd (hv.trans hw.symm) h
  all_goals rfl

theorem insert_insert {env : Env} {x : Context} : (env.insert v x).insert v new = env.insert v new := by
  refine ExtTreeMap.ext_getElem? fun {u} => ?_
  rw [Map.getElem?_insert, Map.getElem?_insert, Map.getElem?_insert]
  split_ifs <;> rfl

theorem range_insert {i : Nat} {q : Quantifier} {c : Cell} {kids : List Node}
    (h : (quantified i q body).Blind v new c kids) :
    q.range P (c.env.insert v new) = q.range P c.env := by
  unfold Quantifier.range
  exact List.filter_congr fun x _ => h x

theorem Placed.substitute {c : Cell} {kids : List Node} (hv : v ∉ f.vars) (hb : f.Blind v new c kids)
    (hp : f.Placed P c kids) : f.Placed P (c.substitute (some ⟨v, new⟩))
      (kids.map (Node.map (Cell.substitute (some ⟨v, new⟩)))) := by
  refine ⟨hp.1, ?_⟩
  cases f with
  | quantified i q body =>
    have hvq : v ≠ q.var := fun e => hv (e ▸ List.mem_cons_self)
    have hplaces : q.places P (c.env.insert v new) =
        (q.places P c.env).map fun e => (e.1, e.2.insert v new) := by
      rw [Quantifier.places, Quantifier.places, List.map_map, range_insert hb]
      exact List.map_congr_left fun x _ => Prod.ext rfl (insert_comm hvq).symm
    have hperm := hp.2.map fun e : Option Nat × Env => (e.1, e.2.insert v new)
    rw [← hplaces, List.map_map] at hperm
    rw [List.map_map]
    refine List.Perm.trans (List.Perm.of_eq (List.map_congr_left fun kid _ => ?_)) hperm
    unfold Function.comp Node.place
    rw [Node.cell_map]
    rfl
  | binary i op left right | negation i body | application i _ =>
    intro kid hk
    obtain ⟨kid₀, hk₀, rfl⟩ := List.mem_map.mp hk
    have hplace := hp.2 kid₀ hk₀
    rw [Node.place, Node.cell_map]
    exact Prod.ext (congrArg Prod.fst hplace :)
      (congrArg (fun e : Option Nat × Env => e.2.insert v new) hplace :)

/-- **Links below a branch** where nothing moves. -/
theorem Every.links_insert (hv : v ∉ f.vars) : f.Every (Placed P) n →
    f.Every (Unmoved r P v new) n → f.Every (Blind v new) n →
    f.Every (fun g c _ => g.links r P (c.env.insert v new) = g.links r P c.env) n := by
  induction f generalizing n with
  | quantified i q body ih =>
    obtain ⟨c, kids⟩ := n
    intro hp hu hb
    rw [vars_quantified, List.mem_cons, not_or] at hv
    have hkids := fun kid hk => ih hv.2 (hp.2 kid hk) (hu.2 kid hk) (hb.2 kid hk)
    refine ⟨LinkSet.ext_mem fun l => ?_, hkids⟩
    rw [mem_links_quantified, mem_links_quantified, range_insert hb.1]
    refine exists_congr fun x => and_congr_right fun hx => ?_
    obtain ⟨kid, hk, -, he⟩ := exists_kid_of_places hp.1.2 hx
    have hswap : q.bind (c.env.insert v new) x = (q.bind c.env x).insert v new :=
      (insert_comm hv.1).symm
    rw [hswap, ← he, (hu.2 kid hk).root.1, (hkids kid hk).root]
  | binary i op left right ihl ihr =>
    obtain ⟨c, kids⟩ := n
    rintro ⟨hp, a, b, rfl, hpa, hpb⟩ hu hb
    obtain ⟨hu, hua, hub⟩ := every_binary.mp hu
    obtain ⟨hb, hba, hbb⟩ := every_binary.mp hb
    rw [vars_binary, List.mem_append, not_or] at hv
    have ha := ihl hv.1 hpa hua hba
    have hb' := ihr hv.2 hpb hub hbb
    have hea : a.cell.env = c.env := hp.left_env
    have heb : b.cell.env = c.env := hp.right_env
    refine ⟨?_, a, b, rfl, ha, hb'⟩
    have hta := hua.root.1
    have htb := hub.root.1
    have hla := ha.root
    have hlb := hb'.root
    rw [hea] at hta
    rw [heb] at htb
    rw [hea] at hla
    rw [heb] at hlb
    change (binary i op left right).links r P (c.env.insert v new) = _
    rw [links, links, hta, htb, hla, hlb]
  | negation i body ih =>
    obtain ⟨c, kids⟩ := n
    rintro ⟨hp, a, rfl, hpa⟩ hu hb
    obtain ⟨hu, hua⟩ := every_negation.mp hu
    obtain ⟨hb, hba⟩ := every_negation.mp hb
    have ha := ih hv hpa hua hba
    have hea : a.cell.env = c.env := hp.operand_env
    refine ⟨?_, a, rfl, ha⟩
    have hla := ha.root
    rw [hea] at hla
    change (negation i body).links r P (c.env.insert v new) = _
    rw [links, links, hla]
  | application i a =>
    obtain ⟨c, kids⟩ := n
    exact fun hp _ _ => ⟨rfl, hp.2⟩

/-- **An instance that was probed** is indifferent to the exchange. -/
theorem Every.indifferent (hold : P.live? p old.id = some old) (hP : P.Keyed) :
    f.patterns.Nodup → f.Binds p v → f.Every (Placed P) n →
    f.Every (Probed r P p v old new) n → f.Indifferent r P p old new n.cell.env := by
  induction f generalizing n with
  | quantified i q body ih =>
    obtain ⟨c, kids⟩ := n
    intro hnd hb hp hprobed
    have hbody : body.Binds p v := fun q' hq' => hb q' (List.mem_cons_of_mem _ hq')
    rw [patterns_quantified, List.nodup_cons] at hnd
    rw [Indifferent, Node.cell_mk]
    by_cases hq : q.pattern = p
    · rw [if_pos hq]
      obtain ⟨hadmits, hkids⟩ := hprobed.1 hq
      refine ⟨hadmits, fun ha => ?_⟩
      have hv : q.var = v := (hb q List.mem_cons_self).mp hq
      have hmem : old ∈ q.range P c.env := (Pools.mem_range hP).mpr ⟨hq ▸ hold, ha⟩
      obtain ⟨kid, hk, hbound, he⟩ := exists_kid_of_places hp.1.2 hmem
      obtain ⟨hu, hblind⟩ := hkids kid hk hbound
      have hlinks := Every.links_insert (hbody.notMem_vars (hq ▸ hnd.1)) (hp.2 kid hk) hu hblind
      have hnew : q.bind c.env new = kid.cell.env.insert v new := by
        rw [he, Quantifier.bind, Quantifier.bind, hv, insert_insert]
      rw [hnew, ← he]
      exact ⟨hu.root.1, hlinks.root⟩
    · rw [if_neg hq]
      intro x hx
      obtain ⟨kid, hk, -, he⟩ := exists_kid_of_places hp.1.2 hx
      rw [← he]
      exact ih hnd.2 hbody (hp.2 kid hk) (hprobed.2 kid hk)
  | binary i op left right ihl ihr =>
    obtain ⟨c, kids⟩ := n
    rintro hnd hb ⟨hp, a, b, rfl, hpa, hpb⟩ hq
    obtain ⟨-, hqa, hqb⟩ := every_binary.mp hq
    rw [patterns_binary, List.nodup_append] at hnd
    have hea : a.cell.env = c.env := hp.left_env
    have heb : b.cell.env = c.env := hp.right_env
    have ha := ihl hnd.1 (fun q hq => hb q (List.mem_append_left _ hq)) hpa hqa
    have hb' := ihr hnd.2.1 (fun q hq => hb q (List.mem_append_right _ hq)) hpb hqb
    exact ⟨hea ▸ ha, heb ▸ hb'⟩
  | negation i body ih =>
    obtain ⟨c, kids⟩ := n
    rintro hnd hb ⟨hp, a, rfl, hpa⟩ hq
    obtain ⟨-, hqa⟩ := every_negation.mp hq
    have hea : a.cell.env = c.env := hp.operand_env
    exact hea ▸ ih hnd hb hpa hqa
  | application i a => exact fun _ _ _ _ => trivial

/-! ## Rebound branches -/

/-- The tree with the branches of quantifiers over a pattern rebound that are selected. -/
def replaced (p v : String) (old : Nat) (new : Context) (selected : Node → Bool) :
    Formula → Node → Node
  | quantified _ q body, .mk c kids =>
    if q.pattern = p then
      .mk (if kids.any selected then c.rebindBranch old new.id else c)
        (kids.map fun kid => if selected kid then kid.rebound v new else kid)
    else .mk c (kids.map (replaced p v old new selected body))
  | binary _ _ left right, .mk c kids =>
    match kids with
    | [a, b] =>
      .mk c [replaced p v old new selected left a, replaced p v old new selected right b]
    | _ => .mk c kids
  | negation _ body, .mk c kids =>
    match kids with
    | [a] => .mk c [replaced p v old new selected body a]
    | _ => .mk c kids
  | application .., n => n

/-- The branches of the quantifiers over a pattern. -/
def branchesOver (p : String) : Formula → Node → List Node
  | quantified _ q body, .mk _ kids =>
    if q.pattern = p then kids else kids.flatMap (branchesOver p body)
  | binary _ _ left right, .mk _ kids =>
    match kids with
    | [a, b] => branchesOver p left a ++ branchesOver p right b
    | _ => []
  | negation _ body, .mk _ kids =>
    match kids with
    | [a] => branchesOver p body a
    | _ => []
  | application .., _ => []

theorem rebindBranch_eq (c : Cell) (a b : Nat) :
    ∃ truths, c.rebindBranch a b = { c with branchTruths := truths } := by
  unfold Cell.rebindBranch
  split
  · exact ⟨_, rfl⟩
  · exact ⟨c.branchTruths, rfl⟩

theorem replaced_cell (f : Formula) (p v : String) (a : Nat) (new : Context)
    (selected : Node → Bool) (n : Node) :
    ∃ truths, (f.replaced p v a new selected n).cell = { n.cell with branchTruths := truths } := by
  obtain ⟨c, kids⟩ := n
  cases f with
  | quantified i q body =>
    unfold replaced
    split
    · by_cases hany : kids.any selected = true
      · rw [if_pos hany]
        exact rebindBranch_eq c a new.id
      · rw [if_neg hany]
        exact ⟨c.branchTruths, rfl⟩
    · exact ⟨c.branchTruths, rfl⟩
  | binary i op left right | negation i body =>
    unfold replaced
    dsimp only
    split <;> exact ⟨c.branchTruths, rfl⟩
  | application i _ => exact ⟨c.branchTruths, rfl⟩

theorem replaced_place (f : Formula) (a : Nat) (selected : Node → Bool) (n : Node) :
    (f.replaced p v a new selected n).place = n.place := by
  obtain ⟨truths, h⟩ := replaced_cell f p v a new selected n
  rw [Node.place, Node.place, h]

/-! ## The instance after an exchange -/

/-- The node is right for the pools, and its links will be once the context is renamed in them. -/
structure Exchanged (r : Registry) (P : Pools) (trusted : Nat → Prop) (v : String) (a b : Nat)
    (f : Formula) (c : Cell) (kids : List Node) : Prop where
  placed : f.Placed P c kids
  found : f.Found r P c kids
  links : trusted c.index → ∀ L ∈ c.links, L.rename v a b = f.links r P c.env

variable {Q : Pools} {trusted : Nat → Prop} {a b : Nat}

theorem exchanged_of_untouched (hpools : ∀ p ∈ f.patterns, P.pool p = Q.pool p) (hv : v ∉ f.vars)
    (hp : f.Every (Placed P) n) (hf : f.Every (Found r P) n) (hc : f.Every (Cached r P trusted) n) :
    f.Every (Exchanged r Q trusted v a b) n := by
  refine (((hp.placed_congr hpools).and (hf.found_congr hpools)).and (hc.cached_congr hpools)).imp ?_
  rintro g hg m - ⟨⟨hpm, hfm⟩, hcm⟩
  refine ⟨hpm, hfm, fun ht L hL => ?_⟩
  rw [hcm ht L hL, rename_links_of_notMem fun hm => hv (vars_subset hg hm)]

theorem exchanged_rebound (hpools : ∀ p ∈ f.patterns, P.pool p = Q.pool p) (hv : v ∉ f.vars)
    (hp : f.Every (Placed P) n) (hf : f.Every (Found r P) n) (hc : f.Every (Cached r P trusted) n)
    (hu : f.Every (Unmoved r P v new) n) (hb : f.Every (Blind v new) n) :
    f.Every (Exchanged r Q trusted v a b) (n.rebound v new) := by
  have hlinks := Every.links_insert hv hp hu hb
  refine Every.onCell (fun h => ⟨h.placed, h.found, h.links⟩) (Every.map ?_)
  refine ((hp.and hf).and ((hc.and hu).and (hb.and hlinks))).imp ?_
  rintro g hg m - ⟨⟨hpm, hfm⟩, ⟨hcm, hum⟩, hbm, hlm⟩
  have hpools' : ∀ p ∈ g.patterns, P.pool p = Q.pool p := fun p hp =>
    hpools p (patterns_subset hg hp)
  have hvg : v ∉ g.vars := fun hm => hv (vars_subset hg hm)
  refine ⟨Placed.substitute hvg hbm (hpm.congr hpools'), ⟨?_, hfm.2.1, ?_⟩, fun ht L hL => ?_⟩
  · change m.cell.staged = .ofBool (g.holds r Q (m.cell.env.insert v new))
    rw [← holds_congr _ hpools', show g.holds r P (m.cell.env.insert v new) = _ from hum.1]
    exact hfm.1
  · cases g with
    | quantified i q body =>
      refine hfm.2.2.trans ?_
      rw [Node.stagedTruths, Node.stagedTruths, List.map_map]
      refine congrArg (ExtTreeMap.ofList · compare) (List.map_congr_left fun kid _ => ?_)
      rw [Function.comp_apply, Node.cell_map]
      rfl
    | application i a => exact hum.2
    | binary i op left right | negation i body => exact trivial
  · change L.rename v a b = g.links r Q (m.cell.env.insert v new)
    rw [← links_congr _ hpools', hlm, hcm ht L hL, rename_links_of_notMem hvg]

/-- The branches bound to a context. -/
def boundTo (id : Nat) (kid : Node) : Bool :=
  kid.cell.bound = some id

/-- The branches of a quantifier with the one bound to `old` rebound. -/
def reboundAt (v : String) (old : Nat) (new : Context) (kids : List Node) : List Node :=
  kids.map fun kid => if boundTo old kid = true then kid.rebound v new else kid

theorem bound_rebound (kid : Node) : (kid.rebound v new).cell.bound = some new.id := by
  obtain ⟨c, kids⟩ := kid
  rw [Node.rebound, Node.map_mk]
  rfl

theorem env_rebound (kid : Node) : (kid.rebound v new).cell.env = kid.cell.env.insert v new := by
  obtain ⟨c, kids⟩ := kid
  rw [Node.rebound, Node.map_mk]
  rfl

theorem staged_rebound (kid : Node) : (kid.rebound v new).cell.staged = kid.cell.staged := by
  obtain ⟨c, kids⟩ := kid
  rw [Node.rebound, Node.map_mk]
  rfl

theorem map_rebound_of_unselected {selected : Node → Bool} {kids : List Node}
    (h : ∀ kid ∈ kids, selected kid = false) :
    (kids.map fun kid => if selected kid = true then kid.rebound v new else kid) = kids := by
  refine (List.map_congr_left fun kid hk => ?_).trans (List.map_id kids)
  rw [h kid hk]
  rfl

theorem map_rebound_of_selected {selected : Node → Bool} {l r : List Node} {kid : Node}
    (hkid : selected kid = true) (h : ∀ k ∈ l ++ r, selected k = false) :
    ((l ++ kid :: r).map fun kid => if selected kid = true then kid.rebound v new else kid) =
      l ++ kid.rebound v new :: r := by
  rw [List.map_append, List.map_cons, if_pos hkid,
    map_rebound_of_unselected fun k hk => h k (List.mem_append_left r hk),
    map_rebound_of_unselected fun k hk => h k (List.mem_append_right l hk)]

theorem boundTo_of_other {l r : List Node} {kid : Node} {id : Nat}
    (hd : ((l ++ kid :: r).map fun kid => kid.cell.bound.getD 0).Nodup)
    (hkid : boundTo id kid = true) : ∀ k ∈ l ++ r, boundTo id k = false := by
  intro k hk
  refine decide_eq_false fun e => ?_
  rw [List.map_append, List.map_cons, List.nodup_middle, ← List.map_append, List.nodup_cons] at hd
  refine hd.1 (List.mem_map.mpr ⟨k, hk, ?_⟩)
  rw [e, show kid.cell.bound = some id from of_decide_eq_true hkid]

/-- Where the branches are after the exchange. -/
def movedPlace (v : String) (old : Nat) (new : Context) (place : Option Nat × Env) :
    Option Nat × Env :=
  if place.1 = some old then (some new.id, place.2.insert v new) else place

theorem places_reboundAt (hx : P.Exchangeable p old new) (hP : P.Keyed) {q : Quantifier} {env : Env}
    (hq : q.pattern = p) (hv : q.var = v) (ha : q.admits env old = q.admits env new)
    {kids : List Node} (hpl : (kids.map Node.place).Perm (q.places P env)) :
    ((reboundAt v old.id new kids).map Node.place).Perm
      (q.places (P.exchange p old.id new) env) := by
  have hkids : (reboundAt v old.id new kids).map Node.place =
      (kids.map Node.place).map (movedPlace v old.id new) := by
    rw [reboundAt, List.map_map, List.map_map]
    refine List.map_congr_left fun kid _ => ?_
    change Node.place (if decide (kid.cell.bound = some old.id) = true then _ else _) =
      if kid.cell.bound = some old.id then _ else _
    by_cases hb : kid.cell.bound = some old.id
    · rw [if_pos (decide_eq_true hb), if_pos hb]
      exact Prod.ext (bound_rebound kid) (env_rebound kid)
    · rw [if_neg (by rwa [decide_eq_true_iff]), if_neg hb]
  have hplaces : ((q.range P env).map (old.instead new)).map (fun x => (some x.id, q.bind env x)) =
      (q.places P env).map (movedPlace v old.id new) := by
    rw [Quantifier.places, List.map_map, List.map_map]
    refine List.map_congr_left fun x _ => ?_
    change (some (old.instead new x).id, q.bind env (old.instead new x)) =
      if some x.id = some old.id then _ else _
    unfold Context.instead
    by_cases hid : x.id = old.id
    · rw [if_pos hid, if_pos (congrArg some hid)]
      change (some new.id, env.insert q.var new) = (some new.id, (env.insert q.var x).insert v new)
      rw [hv, insert_insert]
    · rw [if_neg hid, if_neg fun e => hid (Option.some.inj e)]
  rw [hkids]
  refine (hpl.map (movedPlace v old.id new)).trans ?_
  rw [← hplaces]
  exact ((Pools.range_exchange hx hP hq ha).map _).symm

theorem rebindBranch_stagedTruths {c : Cell} {kids : List Node}
    (hbt : c.branchTruths = Node.stagedTruths kids)
    (hd : (kids.map fun kid => kid.cell.bound.getD 0).Nodup)
    (hd' : ((reboundAt v old.id new kids).map fun kid => kid.cell.bound.getD 0).Nodup) :
    (if kids.any (boundTo old.id) then c.rebindBranch old.id new.id else c) =
      { c with branchTruths := Node.stagedTruths (reboundAt v old.id new kids) } := by
  by_cases hany : kids.any (boundTo old.id) = true
  · rw [if_pos hany]
    obtain ⟨kid, hk, hb⟩ := List.any_eq_true.mp hany
    have hbound : kid.cell.bound = some old.id := of_decide_eq_true hb
    have hid : kid.cell.bound.getD 0 = old.id := by rw [hbound]; rfl
    obtain ⟨l, r, rfl⟩ := List.append_of_mem hk
    have hat : reboundAt v old.id new (l ++ kid :: r) = l ++ kid.rebound v new :: r :=
      map_rebound_of_selected hb (boundTo_of_other hd hb)
    rw [hat] at hd' ⊢
    have hget : c.branchTruths[old.id]? = some kid.cell.staged := by
      rw [hbt, Node.stagedTruths]
      refine (Map.getElem?_ofList ?_).mpr (List.mem_map.mpr ⟨kid, hk, by rw [hid]⟩)
      rw [List.map_map]
      exact hd
    have herase := Node.stagedTruths_erase hd
    have hinsert := Node.stagedTruths_insert hd'
    rw [hid] at herase
    rw [bound_rebound, staged_rebound] at hinsert
    unfold Cell.rebindBranch
    rw [hget, ← hinsert, ← herase, hbt]
    rfl
  · have hnone : ∀ kid ∈ kids, boundTo old.id kid = false := fun kid hk =>
      Bool.eq_false_iff.mpr fun hb => hany (List.any_eq_true.mpr ⟨kid, hk, hb⟩)
    rw [if_neg hany, reboundAt, map_rebound_of_unselected hnone, ← hbt]

/-! Each node keeps its truth and its links, up to the context renamed in them. -/

section Replaced

variable (hx : P.Exchangeable p old new) (hP : P.Keyed)

include hx hP

theorem exchanged_root (hnd : f.patterns.Nodup) (hb : f.Binds p v) (hp : f.Every (Placed P) n)
    (hf : f.Every (Found r P) n) (hc : f.Every (Cached r P trusted) n)
    (hprobed : f.Every (Probed r P p v old new) n) :
    n.cell.staged = .ofBool (f.holds r (P.exchange p old.id new) n.cell.env) ∧
      (trusted n.cell.index → ∀ L ∈ n.cell.links,
        L.rename v old.id new.id = f.links r (P.exchange p old.id new) n.cell.env) := by
  have hmeaning := meaning_exchange hx hP hnd hb (hp.indifferent hx.live hP hnd hb hprobed)
  rw [hmeaning.1, hmeaning.2]
  exact ⟨hf.root.1, fun ht L hL => by rw [hc.root ht L hL]⟩

/-- A quantifier over the pattern: the branch bound to the old context is rebound. -/
theorem exchanged_over {i : Nat} {q : Quantifier} {c : Cell} {kids : List Node} (hq : q.pattern = p)
    (hnd : (quantified i q body).patterns.Nodup) (hb : (quantified i q body).Binds p v)
    (hp : (quantified i q body).Every (Placed P) (.mk c kids))
    (hf : (quantified i q body).Every (Found r P) (.mk c kids))
    (hc : (quantified i q body).Every (Cached r P trusted) (.mk c kids))
    (hprobed : (quantified i q body).Every (Probed r P p v old new) (.mk c kids)) :
    (quantified i q body).Every (Exchanged r (P.exchange p old.id new) trusted v old.id new.id)
      ((quantified i q body).replaced p v old.id new (boundTo old.id) (.mk c kids)) := by
  obtain ⟨hstaged, hlinks⟩ := exchanged_root hx hP hnd hb hp hf hc hprobed
  obtain ⟨hadmits, hkids⟩ := hprobed.1 hq
  rw [patterns_quantified, List.nodup_cons] at hnd
  have hv : q.var = v := (hb q List.mem_cons_self).mp hq
  have hnot : p ∉ body.patterns := hq ▸ hnd.1
  have hvars : v ∉ body.vars :=
    Binds.notMem_vars (fun q' hq' => hb q' (List.mem_cons_of_mem _ hq')) hnot
  have hpools : ∀ p' ∈ body.patterns, P.pool p' = (P.exchange p old.id new).pool p' :=
    fun p' hp' => (Pools.pool_exchange_of_ne P
      (fun e : p = p' => hnot (e.symm ▸ hp')) old.id new).symm
  have hplaces := places_reboundAt (v := v) hx hP hq hv hadmits hp.1.2
  have hbt := rebindBranch_stagedTruths hf.1.2.2 (nodup_bounds hP hp.1.2)
    (nodup_bounds (hP.exchange p old.id new) hplaces)
  unfold replaced
  rw [if_pos hq]
  refine ⟨?_, fun kid' hk' => ?_⟩
  · rw [hbt]
    exact ⟨⟨hp.1.1, hplaces⟩, ⟨hstaged, hf.1.2.1, rfl⟩, hlinks⟩
  · obtain ⟨kid, hk, rfl⟩ := List.mem_map.mp hk'
    by_cases hbound : boundTo old.id kid = true
    · rw [if_pos hbound]
      obtain ⟨hu, hblind⟩ := hkids kid hk (of_decide_eq_true hbound)
      exact exchanged_rebound hpools hvars (hp.2 kid hk) (hf.2 kid hk) (hc.2 kid hk) hu hblind
    · rw [if_neg hbound]
      exact exchanged_of_untouched hpools hvars (hp.2 kid hk) (hf.2 kid hk) (hc.2 kid hk)

omit hx hP in
/-- A quantifier over another pattern keeps its branches where they are. -/
theorem exchanged_beside (old new : Context) {i : Nat} {q : Quantifier} {c : Cell}
    {kids : List Node} (hq : q.pattern ≠ p) (hp : (quantified i q body).Placed P c kids)
    (hf : (quantified i q body).Found r P c kids) {g : Node → Node}
    (hplace : ∀ kid, (g kid).place = kid.place)
    (hcell : ∀ kid, ∃ truths, (g kid).cell = { kid.cell with branchTruths := truths }) :
    (quantified i q body).Placed (P.exchange p old.id new) c (kids.map g) ∧
      c.branchTruths = Node.stagedTruths (kids.map g) := by
  have hpl : (kids.map Node.place).Perm (q.places P c.env) := hp.2
  have hbt : c.branchTruths = Node.stagedTruths kids := hf.2.2
  have hrange : q.places (P.exchange p old.id new) c.env = q.places P c.env := by
    rw [Quantifier.places, Quantifier.places, Pools.range_congr
      (Pools.pool_exchange_of_ne P (fun e => hq e.symm) old.id new)]
  have hplaces : (kids.map g).map Node.place = kids.map Node.place := by
    rw [List.map_map]
    exact List.map_congr_left fun kid _ => hplace kid
  refine ⟨⟨hp.1, ?_⟩, hbt.trans ?_⟩
  · rw [← hrange] at hpl
    exact hplaces ▸ hpl
  · rw [Node.stagedTruths, Node.stagedTruths, List.map_map]
    refine congrArg (ExtTreeMap.ofList · compare) (List.map_congr_left fun kid _ => ?_)
    obtain ⟨truths, h⟩ := hcell kid
    rw [Function.comp_apply, h]

/-- **The instance after an exchange** that was probed. -/
theorem exchanged_replaced :
    f.patterns.Nodup → f.Binds p v → f.Every (Placed P) n → f.Every (Found r P) n →
    f.Every (Cached r P trusted) n → f.Every (Probed r P p v old new) n →
    f.Every (Exchanged r (P.exchange p old.id new) trusted v old.id new.id)
      (f.replaced p v old.id new (boundTo old.id) n) := by
  induction f generalizing n with
  | quantified i q body ih =>
    intro hnd hb hp hf hc hprobed
    obtain ⟨hstaged, hlinks⟩ := exchanged_root hx hP hnd hb hp hf hc hprobed
    obtain ⟨c, kids⟩ := n
    by_cases hq : q.pattern = p
    · exact exchanged_over hx hP hq hnd hb hp hf hc hprobed
    · obtain ⟨hplaced, hbt⟩ := exchanged_beside old new hq hp.1 hf.1
        (g := body.replaced p v old.id new (boundTo old.id))
        (replaced_place body old.id _) (replaced_cell body p v old.id new _)
      rw [patterns_quantified, List.nodup_cons] at hnd
      unfold replaced
      rw [if_neg hq]
      refine ⟨⟨hplaced, ⟨hstaged, hf.1.2.1, hbt⟩, hlinks⟩, fun kid' hk' => ?_⟩
      obtain ⟨kid, hk, rfl⟩ := List.mem_map.mp hk'
      exact ih hnd.2 (fun q' hq' => hb q' (List.mem_cons_of_mem _ hq')) (hp.2 kid hk) (hf.2 kid hk)
        (hc.2 kid hk) (hprobed.2 kid hk)
  | binary i op left right ihl ihr =>
    intro hnd hb hp hf hc hprobed
    obtain ⟨hstaged, hlinks⟩ := exchanged_root hx hP hnd hb hp hf hc hprobed
    obtain ⟨c, kids⟩ := n
    obtain ⟨hp, x, y, rfl, hpx, hpy⟩ := hp
    obtain ⟨hf, hfx, hfy⟩ := every_binary.mp hf
    obtain ⟨-, hcx, hcy⟩ := every_binary.mp hc
    obtain ⟨-, hqx, hqy⟩ := every_binary.mp hprobed
    rw [patterns_binary, List.nodup_append] at hnd
    unfold replaced
    refine ⟨⟨⟨hp.1, fun kid hk => ?_⟩, ⟨hstaged, hf.2.1, trivial⟩, hlinks⟩, _, _, rfl,
      ihl hnd.1 (fun q hq => hb q (List.mem_append_left _ hq)) hpx hfx hcx hqx,
      ihr hnd.2.1 (fun q hq => hb q (List.mem_append_right _ hq)) hpy hfy hcy hqy⟩
    rcases List.mem_pair.mp hk with rfl | rfl
    · rw [replaced_place]
      exact hp.2 x (by simp)
    · rw [replaced_place]
      exact hp.2 y (by simp)
  | negation i body ih =>
    intro hnd hb hp hf hc hprobed
    obtain ⟨hstaged, hlinks⟩ := exchanged_root hx hP hnd hb hp hf hc hprobed
    obtain ⟨c, kids⟩ := n
    obtain ⟨hp, x, rfl, hpx⟩ := hp
    obtain ⟨hf, hfx⟩ := every_negation.mp hf
    obtain ⟨-, hcx⟩ := every_negation.mp hc
    obtain ⟨-, hqx⟩ := every_negation.mp hprobed
    unfold replaced
    refine ⟨⟨⟨hp.1, fun kid hk => ?_⟩, ⟨hstaged, hf.2.1, trivial⟩, hlinks⟩, _, rfl,
      ih hnd hb hpx hfx hcx hqx⟩
    obtain rfl := List.mem_singleton.mp hk
    rw [replaced_place]
    exact hp.2 x (by simp)
  | application i a =>
    intro hnd hb hp hf hc hprobed
    obtain ⟨hstaged, hlinks⟩ := exchanged_root hx hP hnd hb hp hf hc hprobed
    obtain ⟨c, kids⟩ := n
    exact ⟨⟨⟨hp.1.1, hp.1.2⟩, ⟨hstaged, hf.1.2⟩, hlinks⟩, hp.2⟩

end Replaced

end Formula

end RuleMonitor
