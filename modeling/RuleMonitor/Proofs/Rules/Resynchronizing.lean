import RuleMonitor.Proofs.Evaluation.Reworking
import RuleMonitor.Proofs.Facts.Recording
import RuleMonitor.Proofs.Rules.Checking

/-!
# Instantiations follow their facts

After a batch, the edits that the deltas call for turn the instantiation of a formula over the pools
before into the one over the pools after it, up to the order of branches. The edits are planned on the
instantiation as it was, and applied one after the other while slots are freed and taken again.

* `Node.Arranges`: a node is a fragment in slots, its branches in any order;
  `Formula.arranges_of_instance`: an instance arranges the fragment of its formula.
* `Setting.Regrown`: the branches of a quantifier after the edits.
* `Setting.Resynchronizes`, **`Setting.resynchronizes`**: what edits do to an instantiation.
-/

namespace RuleMonitor

open Std (ExtTreeMap)

/-! ## Instances and fragments -/

/-- The node has the formulas, environments and contexts of a fragment, its branches in any order. -/
inductive Node.Arranges : Node → Fragment → Prop
  | mk {c : Cell} {kids order : List Node} {frs : List Fragment} (hp : kids.Perm order)
      (hk : List.Forall₂ Arranges order frs) :
      Arranges (.mk c kids) (.mk c.formula c.env c.bound frs)

namespace Formula

variable {P : Pools} {f : Formula}

theorem arranges_of_instance : ∀ {env : Env} {bound : Option Nat} {n : Node},
    f.Instance P env bound n → n.Arranges (f.fragment P env bound) := by
  induction f with
  | quantified i q body ih =>
    rintro _ _ ⟨c, kids⟩ ⟨⟨rfl, rfl, rfl⟩, order, hperm, hlen, hzip⟩
    have hko : List.Forall₂ (fun x kid => body.Instance P (q.bind c.env x) (some x.id) kid)
        order kids := List.forall₂_iff_zip.mpr ⟨hlen, fun hm => hzip _ hm⟩
    obtain ⟨kids', hk, hp⟩ := List.perm_comp_forall₂ hperm.symm hko
    refine .mk hp.symm ?_
    rw [List.forall₂_map_right_iff]
    exact hk.flip.imp fun _ _ h => ih h
  | binary i op left right ihl ihr =>
    rintro _ _ ⟨c, kids⟩ ⟨⟨rfl, rfl, rfl⟩, a, b, rfl, ha, hb⟩
    exact .mk (.refl _) (.cons (ihl ha) (.cons (ihr hb) .nil))
  | negation i body ih =>
    rintro _ _ ⟨c, kids⟩ ⟨⟨rfl, rfl, rfl⟩, a, rfl, ha⟩
    exact .mk (.refl _) (.cons (ih ha) .nil)
  | application i a =>
    rintro _ _ ⟨c, kids⟩ ⟨⟨rfl, rfl, rfl⟩, rfl⟩
    exact .mk (.refl _) .nil

/-- **An instance** has the branches of the formula at every node, and stands where it should. -/
theorem placed_of_instance : ∀ {env : Env} {bound : Option Nat} {n : Node},
    f.Instance P env bound n → f.Every (Placed P) n ∧ n.place = (bound, env) := by
  induction f with
  | quantified i q body ih =>
    rintro _ _ ⟨c, kids⟩ ⟨⟨hf, rfl, rfl⟩, order, hperm, hlen, hzip⟩
    have hko : List.Forall₂ (fun x kid => body.Every (Placed P) kid ∧
        kid.place = (some x.id, q.bind c.env x)) order kids :=
      List.forall₂_iff_zip.mpr ⟨hlen, fun hm => ih (hzip _ hm)⟩
    have hplaces : order.map (fun x => (some x.id, q.bind c.env x)) = kids.map Node.place :=
      Lists.map_eq_of_forall₂ hko fun _ _ h => h.2.symm
    refine ⟨⟨⟨hf, ?_⟩, fun kid hk => ?_⟩, rfl⟩
    · rw [← hplaces]
      exact hperm.map _
    · obtain ⟨x, -, h⟩ := Lists.exists_of_forall₂ hko hk
      exact h.1
  | binary i op left right ihl ihr =>
    rintro _ _ ⟨c, kids⟩ ⟨⟨hf, rfl, rfl⟩, a, b, rfl, ha, hb⟩
    refine ⟨⟨⟨hf, fun kid hk => ?_⟩, a, b, rfl, (ihl ha).1, (ihr hb).1⟩, rfl⟩
    rcases List.mem_pair.mp hk with rfl | rfl
    · exact (ihl ha).2
    · exact (ihr hb).2
  | negation i body ih =>
    rintro _ _ ⟨c, kids⟩ ⟨⟨hf, rfl, rfl⟩, a, rfl, ha⟩
    refine ⟨⟨⟨hf, fun kid hk => ?_⟩, a, rfl, (ih ha).1⟩, rfl⟩
    obtain rfl := List.mem_singleton.mp hk
    exact (ih ha).2
  | application i a =>
    rintro _ _ ⟨c, kids⟩ ⟨⟨hf, rfl, rfl⟩, rfl⟩
    exact ⟨⟨⟨hf, nofun⟩, rfl⟩, rfl⟩

end Formula

namespace Setting

variable {s : Setting} {f body : Formula} {q : Quantifier} {P : Pools} {t t' : Tree} {n n' m : Node}
  {es : List Edit}

/-! ## The slots that edits address -/

/-- **No edit addresses a slot that was freed before it.** It finds the node there that was there when
it was planned. -/
theorem Plans.addressed (h : s.Plans f n es) (hs : Tree.Runs s.sentence es t t')
    (ht : t.root = some n) (ho : t.Owns n.indices)
    (hfreed : (t.freedBy s.sentence es).Perm (f.dropped s n)) :
    ∀ before e after, es = before ++ e :: after →
      e.index ∉ t.freedBy s.sentence before ∧ ∃ t₁ m m₁,
        Tree.editAll s.sentence before t = .ok () t₁ ∧ t.find? e.index = some m ∧
        t₁.find? e.index = some m₁ ∧ m.cell.Lasts m₁.cell := by
  rintro before e after rfl
  have hfits : e.Fits n (f.dropped s n) := h.fits e (by simp)
  obtain ⟨t₁, hbefore, hroot₁, hafter⟩ := hs.split (ht ▸ rfl)
  have hsplit := hbefore.freedBy_append (e :: after)
  have hnot : e.index ∉ t.freedBy s.sentence before := by
    intro hmem
    have hdrop : e.index ∈ f.dropped s n := by
      rw [← hfreed.mem_iff, hsplit]
      exact List.mem_append_left _ hmem
    have hd : (t.freedBy s.sentence (before ++ e :: after)).Nodup :=
      hfreed.nodup_iff.mpr (Formula.nodup_dropped ho.nodup)
    -- It is a removal, which frees its slot: the slot would be freed twice.
    have hremove := hfits.eq_remove hdrop
    cases hafter with
    | cons he hr _ =>
      obtain ⟨n₂, hn₂⟩ := Option.isSome_iff_exists.mp hr
      rw [hsplit, Tree.freedBy_cons he] at hd
      rw [hremove] at he hmem hd
      have hagain := Tree.index_mem_frees he hn₂
      exact (List.nodup_append.mp hd).2.2 _ hmem _ (List.mem_append_left _ hagain) rfl
  obtain ⟨m, hm, hi⟩ := Node.exists_of_mem_indices hfits.index_mem
  obtain ⟨n₁, hn₁⟩ := Option.isSome_iff_exists.mp hroot₁
  have hfind : t.find? e.index = some m := by
    unfold Tree.find?
    rw [ht, ← hi]
    exact Node.find?_of_mem ho.nodup hm
  obtain ⟨m₁, hm₁, hl⟩ := hbefore.find?_lasts ht hn₁ ho hfind hnot
  exact ⟨hnot, t₁, m, m₁, hbefore.editAll, hfind, hm₁, hl⟩

/-! ## The branches of quantifiers -/

/-- The branches of a quantifier are those that were not removed, as they were ordered, and then those
of the contexts that it admits of the updated ones and of the added ones, ordered by identity. -/
structure Regrown (s : Setting) (q : Quantifier) (body : Formula) (freed : List Nat) (m m' : Node) :
    Prop where
  old : m'.oldKids.map Node.index = (m.kids.filter fun kid => kid.index ∉ freed).map Node.index
  fresh : List.Forall₂ (fun (x : Context) kid => kid.cell.bound = some x.id ∧
      body.Instance s.facts.pools (q.bind m.cell.env x) (some x.id) kid)
    (((s.facts.delta q.pattern).updated.values.map (·.2)).filter (q.admits m.cell.env) ++
      (s.facts.delta q.pattern).added.values.filter (q.admits m.cell.env)) m'.freshKids
  updated : ((s.facts.delta q.pattern).updated.values.map fun x => x.2.id).Pairwise (· < ·)
  added : ((s.facts.delta q.pattern).added.values.map (·.id)).Pairwise (· < ·)
  pruned : m'.cell.pruned = true ↔ ∃ kid ∈ m.kids, kid.index ∈ freed

theorem instance_of_grafted {Q : Pools} {env : Env} {x : Context} {kid : Node}
    (h : q.Grafted Q body env x kid) :
    kid.cell.bound = some x.id ∧ body.Instance Q (q.bind env x) (some x.id) kid := by
  obtain ⟨hplace, hplaced, -⟩ := Formula.placed_of_grafted h
  have hbound : kid.cell.bound = some x.id := congrArg Prod.fst hplace
  exact ⟨hbound, Formula.instance_of_placed hplaced (congrArg Prod.snd hplace) hbound⟩

theorem regrown_of_reshaped {i : Nat} {freed : List Nat} (h : s.Follows P)
    (ha : s.focus.affects (.quantified i q body)) (hd : m.indices.Nodup)
    (hf : ∀ j ∈ m.indices, j ∈ freed ↔ j ∈ (Formula.quantified i q body).dropped s m)
    (hR : (Formula.quantified i q body).Reshaped s m n') : s.Regrown q body freed m n' := by
  obtain ⟨c, kids⟩ := m
  rw [Formula.Reshaped, if_pos ha] at hR
  obtain ⟨kept, new, truths, hkept, hnew, -, rfl⟩ := hR
  have hkid : ∀ kid ∈ kids, (kid.index ∈ freed ↔
      (s.facts.delta q.pattern).drops (kid.cell.bound.getD 0) = true) := by
    intro kid hk
    rw [← Formula.index_mem_dropped_iff hd ha hk]
    exact hf kid.index (Node.mem_indices_of_mem_kids hk kid.index_mem_indices)
  have hstay : (kids.filter fun kid => kid.index ∉ freed) =
      (s.facts.delta q.pattern).staying kids := by
    refine List.filter_congr fun kid hk => ?_
    rw [Bool.eq_iff_iff, decide_eq_true_iff, hkid kid hk, Bool.not_eq_true', Bool.not_eq_true]
  constructor
  · rw [Formula.oldKids_append rfl, Node.kids_mk, hstay]
    exact (Lists.map_eq_of_forall₂ hkept fun _ _ hR => hR.lasts.index.symm).symm
  · rw [Formula.freshKids_append rfl, ← List.filter_append]
    exact hnew.imp fun _ _ h => instance_of_grafted h
  · refine Map.sorted_map_values fun id x hx => ?_
    exact h.after q.pattern id x.2 ((h.deltas q.pattern).both_of_updated hx).2
  · refine Map.sorted_map_values fun id x hx => ?_
    exact h.after q.pattern id x ((h.deltas q.pattern).after_of_added hx).2
  · rw [Node.cell_mk, Node.kids_mk, decide_eq_true_iff, Delta.staying,
      List.length_filter_lt_length_iff_exists]
    refine exists_congr fun kid => and_congr_right fun hk => ?_
    rw [hkid kid hk]
    simp

/-! ## The instantiation after the edits -/

/-- Edits are planned for an instantiation and lead to another one: each addresses a node that is still
in its slot, the outcome is what instantiation yields now, and what is not removed stays. -/
structure Resynchronizes (s : Setting) (t : Tree) (es : List Edit) (t' : Tree) : Prop where
  planned : (s.plan t).Yields es
  applied : Tree.editAll s.sentence es t = .ok () t'
  addressed : ∀ before e after, es = before ++ e :: after →
    e.index ∉ t.freedBy s.sentence before ∧ ∃ t₁ m m₁,
      Tree.editAll s.sentence before t = .ok () t₁ ∧ t.find? e.index = some m ∧
      t₁.find? e.index = some m₁ ∧ m.cell.Lasts m₁.cell
  rebuilt : ∃ n fr, t'.root = some n ∧ t'.Owns n.indices ∧
    s.sentence.formula.Instance s.facts.pools ∅ none n ∧
    (s.instantiate s.sentence.formula ∅ none).Yields fr ∧ n.Arranges fr
  kept : ∀ i m, t.find? i = some m → i ∉ t.freedBy s.sentence es →
    ∃ m', t'.find? i = some m' ∧ m.cell.Lasts m'.cell
  regrown : ∀ i m j q body, t.find? i = some m → i ∉ t.freedBy s.sentence es →
    s.sentence.formula.at? m.cell.formula = some (.quantified j q body) →
    s.focus.affects (.quantified j q body) = true →
    ∃ m', t'.find? i = some m' ∧ s.Regrown q body (t.freedBy s.sentence es) m m'

/-- The edits for an instance over the pools before the changes in the deltas. -/
theorem resynchronizes_of_follows (h : s.Follows P) (hw : s.sentence.WellFormed)
    (ht : t.root = some n) (hn : s.sentence.formula.Instance P ∅ none n) (ho : t.Owns n.indices) :
    ∃ es t', s.Resynchronizes t es t' := by
  obtain ⟨hp, hplace⟩ := Formula.placed_of_instance hn
  obtain ⟨es, hplans⟩ := exists_plans h.before h.deltas hw.read hp ho.nodup
  have hown : t.Owns (n.indices ++ []) := by
    rwa [List.append_nil]
  obtain ⟨t', n', hruns, ht', hR, hfreed⟩ := hplans.performs t [] ht hown
  have ho' := hruns.owns ht ht' hown
  rw [List.append_nil] at ho'
  have hinst : s.sentence.formula.Instance s.facts.pools ∅ none n' := by
    have hplace' := hR.place_eq.trans hplace
    exact Formula.instance_of_placed (hR.placed h hp) (congrArg Prod.snd hplace')
      (congrArg Prod.fst hplace')
  refine ⟨es, t', plan_yields ht hplans.yields, hruns.editAll,
    hplans.addressed hruns ht ho hfreed,
    ⟨n', _, ht', ho', hinst, s.instantiate_yields _ ∅ none, Formula.arranges_of_instance hinst⟩,
    fun i m => hruns.find?_lasts ht ht' ho, ?_⟩
  intro i m j q body hm hi hat ha
  unfold Tree.find? at hm ⊢
  rw [ht] at hm
  rw [ht']
  obtain ⟨hmem, rfl⟩ := Node.mem_of_find? hm
  obtain ⟨g, hg, m', hm', hgp, hgR, hiff⟩ :=
    hR.survivor ho.nodup hp m hmem fun hdrop => hi (hfreed.mem_iff.mpr hdrop)
  have hg' : some g = some (.quantified j q body) := by
    rw [← hat, ← hw.at?_of_mem hg, hgp.root.1]
  cases hg'
  have hindex : m'.index = m.index := hgR.lasts.index
  refine ⟨m', hindex ▸ Node.find?_of_mem ho'.nodup hm', ?_⟩
  exact regrown_of_reshaped h ha (Node.nodup_indices_of_mem ho.nodup hmem)
    (fun k hk => hfreed.mem_iff.trans (hiff k hk)) hgR

/-- **Edits bring an instantiation up to date.** Let a tree be an instantiation of a formula over the
pools of a store without deltas, its branches in any order, and a valid batch be applied to the store.
The edits that are planned then, with the formulas over the patterns of the batch affected and any
quantifiers handing out their branches, are applied without failure and resynchronize the tree. -/
theorem resynchronizes {draft : Draft} {root : Nat} {sentence : Sentence} {facts : FactStore}
    {batch : List Change} {Q : Pools} (registry : Registry) (concurrent : List Nat)
    (minimalLinks : Bool) (hb : draft.build root = .ok sentence) (hf : facts.Made)
    (hd : facts.hasDeltas = false) (hQ : facts.pools.after? batch = some Q) (ht : t.root = some n)
    (hn : sentence.formula.Instance facts.pools ∅ none n) (ho : t.Owns n.indices) :
    ∃ facts', FactStore.applyBatch batch facts = .ok () facts' ∧ facts'.pools = Q ∧
      ∃ es t', Resynchronizes ⟨sentence, facts', registry, .patterns (batch.map (·.pattern)),
        concurrent, minimalLinks⟩ t es t' := by
  obtain ⟨facts', happlied, rfl, hsep⟩ :=
    FactStore.applyBatch_ok (FactStore.separatedFrom_of_hasDeltas hd) hf.keyed hQ
  refine ⟨facts', happlied, rfl, resynchronizes_of_follows (P := facts.pools) ?_
    (Sentence.wellFormed_of_build hb) ht hn ho⟩
  exact ⟨hf.keyed, hf.keyed.after? hQ, hsep, _, rfl, fun p hp =>
    (Pools.pool_after?_of_untouched hQ hp).symm⟩

end Setting

/-! ## A sample -/

namespace Sample

/-- A store with two sensors. -/
def guarded : FactStore :=
  ((FactStore.applyBatch [change .addition 0 "0", change .addition 1 "0"]).after {}).clearDeltas

/-- The branch of a sensor, in a slot. -/
def branch (slot id : Nat) : Node :=
  .mk { index := slot, formula := 0, bound := some id,
        env := (∅ : Env).insert "x" (change .addition id "0").context } []

/-- The instantiation over the two sensors, the branch of the second one first. -/
def reversed : Node :=
  .mk { index := 0, formula := 1, env := ∅, bound := none } [branch 1 1, branch 2 0]

/-- One sensor is updated, the other one goes, and a third one comes. -/
def renewal : List Change :=
  [change .update 0 "1", change .deletion 1 "0", change .addition 2 "0"]

theorem instance_reversed : sentence.formula.Instance guarded.pools ∅ none reversed := by
  refine ⟨⟨rfl, rfl, rfl⟩, [(change .addition 1 "0").context, (change .addition 0 "0").context],
    by decide +kernel, rfl, fun p hp => ?_⟩
  rcases List.mem_pair.mp hp with rfl | rfl
  · exact ⟨⟨rfl, rfl, rfl⟩, rfl⟩
  · exact ⟨⟨rfl, rfl, rfl⟩, rfl⟩

theorem owns_reversed : ({ root := some reversed, slots := 3 } : Tree).Owns reversed.indices :=
  .refl _

end Sample

theorem Setting.resynchronizes_sample : ∃ facts es t',
    FactStore.applyBatch Sample.renewal Sample.guarded = .ok () facts ∧
      Resynchronizes ⟨Sample.sentence, facts, Sample.registry,
        .patterns ["sensor", "sensor", "sensor"], [], true⟩
        { root := some Sample.reversed, slots := 3 } es t' := by
  obtain ⟨Q, hQ⟩ : ∃ Q, Sample.guarded.pools.after? Sample.renewal = some Q :=
    Option.isSome_iff_exists.mp (by decide +kernel)
  obtain ⟨facts, happlied, -, es, t', h⟩ := resynchronizes
    (t := { root := some Sample.reversed, slots := 3 }) Sample.registry [] true Sample.build_draft
    (.clearDeltas (.applyBatch _ .new)) (by decide +kernel) hQ rfl Sample.instance_reversed
    Sample.owns_reversed
  exact ⟨facts, es, t', happlied, h⟩

end RuleMonitor
