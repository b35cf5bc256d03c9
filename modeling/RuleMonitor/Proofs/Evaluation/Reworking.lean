import RuleMonitor.Proofs.Evaluation.Explanation
import RuleMonitor.Proofs.Evaluation.Planning

/-!
# Instances after their edits

What the edits of a cycle make of an instance that was right for the pools before it is an instance
over the pools after it, prepared for incremental evaluation, and what is known of its links is what
the generation of links counts on.

* **`Formula.Reshaped.placed`**, `Formula.Reworked.prepared`, `Formula.Reworked.carried`.
* `Formula.Reworked.single`: after one addition or deletion.
-/

namespace RuleMonitor

open Std (ExtTreeMap ExtTreeSet)

/-- The facts of a setting are those over the pools `P` after the changes in the deltas, and the focus
has all patterns that changed. -/
structure Setting.Follows (s : Setting) (P : Pools) : Prop where
  before : P.Keyed
  after : s.facts.pools.Keyed
  deltas : s.facts.SeparatedFrom P
  focus : ∃ ps, s.focus = .patterns ps ∧ ∀ p, p ∉ ps → P.pool p = s.facts.pools.pool p

namespace Formula

variable {r : Registry} {s : Setting} {P : Pools} {f g body : Formula} {n n' : Node} {q : Quantifier}

theorem pools_eq_of_follows (h : s.Follows P) (hf : s.focus.affects f = false) :
    ∀ p ∈ f.patterns, P.pool p = s.facts.pools.pool p := by
  obtain ⟨ps, hfocus, hps⟩ := h.focus
  intro p hp
  refine hps p fun hm => ?_
  rw [hfocus, Focus.affects, ← Bool.not_eq_true, ranges_iff] at hf
  exact hf ⟨p, hp, hm⟩

theorem Reworked.place_eq (h : f.Reworked s n n') : n'.place = n.place :=
  h.reshaped.place_eq

/-! ## Nodes just put into slots -/

section Blank

variable {p : Formula → Cell → List Node → Prop}

theorem Every.noted_of_blank (h : f.Every p n) (hn : n.Blank) : f.Every Noted n := by
  refine h.imp fun g _ m hm _ => ?_
  cases g with
  | quantified i q body =>
    intro id hid
    have hc := hn m.cell (Node.cell_mem_cells_of_mem hm)
    rw [show m.cell.branchTruths = ∅ from congrArg Cell.branchTruths hc.symm] at hid
    simp at hid
  | binary i op left right | negation i body | application i a => exact trivial

theorem Every.carried_of_blank {focus : Focus} {trusted : Nat → Prop} (h : f.Every p n)
    (hn : n.Blank) : f.Every (Carried r P focus trusted) n := by
  refine h.imp fun g _ m hm _ _ L hL => ?_
  have hc := hn m.cell (Node.cell_mem_cells_of_mem hm)
  rw [show m.cell.links = none from congrArg Cell.links hc.symm] at hL
  cases hL

theorem Every.single_of_blank {change : Change} (h : f.Every p n) (hn : n.Blank) :
    f.Every (Single change) n := by
  refine h.imp fun g _ m hm _ _ => ?_
  have hc := hn m.cell (Node.cell_mem_cells_of_mem hm)
  cases g with
  | quantified i q body =>
    change if _ then m.cell.pruned = false else m.cell.fresh = 0
    split_ifs
    · exact congrArg Cell.pruned hc.symm
    · exact congrArg Cell.fresh hc.symm
  | binary i op left right | negation i body | application i a => exact trivial

end Blank

theorem calm_of_blank (hn : n.Blank) : n.Calm :=
  fun c hc => congrArg Cell.pending (hn c hc).symm

theorem placed_of_grafted {env : Env} {x : Context} (h : q.Grafted P body env x n) :
    n.place = (some x.id, q.bind env x) ∧ body.Every (Placed P) n ∧ n.Blank := by
  obtain ⟨slots, rfl⟩ := h
  exact ⟨place_fragment body _ _ _, placed_fragment body _ _ _, Fragment.blank_place _ _⟩

/-! ## What is known of every node after the edits -/

/-- What the edits leave of a property of every node, if nodes of formulas that are not affected have
it, and so have nodes just put into slots and nodes that were reshaped. -/
theorem Reshaped.every {p p' : Formula → Cell → List Node → Prop}
    (unaffected : ∀ {g : Formula} {m : Node}, s.focus.affects g = false → g.Every p m → g.Every p' m)
    (grafted : ∀ {g : Formula} {m : Node}, g.Every (Placed s.facts.pools) m → m.Blank →
      g.Every p' m)
    (affected : ∀ {g : Formula} {m m' : Node}, s.focus.affects g = true → p g m.cell m.kids →
      g.Reshaped s m m' → p' g m'.cell m'.kids) :
    ∀ {n n' : Node}, f.Every p n → f.Reshaped s n n' → f.Every p' n' := by
  have hrest : ∀ {g : Formula} {n n' : Node}, ¬ s.focus.affects g = true → g.Every p n →
      g.Reshaped s n n' → g.Every p' n' := by
    intro g n n' ha hp hn
    have ha := eq_false_of_ne_true ha
    rw [(reshaped_iff_of_unaffected ha).mp hn]
    exact unaffected ha hp
  induction f with
  | quantified i q body ih =>
    rintro ⟨c, kids⟩ n' hp hn
    by_cases ha : s.focus.affects (quantified i q body)
    · have hroot := affected ha hp.root hn
      rw [Reshaped, if_pos ha] at hn
      obtain ⟨kept, new, truths, hkept, hnew, -, rfl⟩ := hn
      refine ⟨hroot, fun kid hk => ?_⟩
      rcases List.mem_append.mp hk with hk | hk
      · obtain ⟨kid₀, hk₀, hR⟩ := Lists.exists_of_forall₂ hkept hk
        exact ih (hp.2 kid₀ (Delta.mem_of_mem_staying hk₀)) hR
      · obtain ⟨x, -, hx⟩ := Lists.exists_of_forall₂ hnew hk
        exact grafted (placed_of_grafted hx).2.1 (placed_of_grafted hx).2.2
    · exact hrest ha hp hn
  | binary i op left right ihl ihr =>
    rintro ⟨c, kids⟩ n' hp hn
    by_cases ha : s.focus.affects (binary i op left right)
    · have hroot := affected ha hp.root hn
      rw [Reshaped, if_pos ha] at hn
      obtain ⟨a, b, a', b', rfl, hRa, hRb, rfl⟩ := hn
      obtain ⟨-, hpa, hpb⟩ := every_binary.mp hp
      exact ⟨hroot, a', b', rfl, ihl hpa hRa, ihr hpb hRb⟩
    · exact hrest ha hp hn
  | negation i body ih =>
    rintro ⟨c, kids⟩ n' hp hn
    by_cases ha : s.focus.affects (negation i body)
    · have hroot := affected ha hp.root hn
      rw [Reshaped, if_pos ha] at hn
      obtain ⟨a, a', rfl, hRa, rfl⟩ := hn
      obtain ⟨-, hpa⟩ := every_negation.mp hp
      exact ⟨hroot, a', rfl, ih hpa hRa⟩
    · exact hrest ha hp hn
  | application i a =>
    rintro ⟨c, kids⟩ n' hp hn
    by_cases ha : s.focus.affects (application i a)
    · have hroot := affected ha hp.root hn
      have hkids := hp.2
      cases hn
      exact ⟨hroot, hkids⟩
    · exact hrest ha hp hn

/-! ## The branches after the edits -/

theorem range_perm (h : s.Follows P) (env : Env) :
    (q.range s.facts.pools env).Perm
      ((q.range P env).filter (fun x => !(s.facts.delta q.pattern).drops x.id) ++
        (Setting.newContexts (s.facts.delta q.pattern)).filter fun x => q.admits env x) := by
  have hv := (h.deltas q.pattern).values_perm (fun id x hx => h.before q.pattern id x hx)
    fun id x hx => h.after q.pattern id x hx
  have hf := hv.filter fun x => q.admits env x
  rw [List.filter_append, List.filter_filter] at hf
  unfold Quantifier.range Pools.domain
  rw [List.filter_filter]
  refine hf.trans (List.Perm.of_eq ?_)
  exact congrArg (· ++ _) (List.filter_congr fun x _ => Bool.and_comm _ _)

theorem staying_places {c : Cell} {kids : List Node} {d : Delta}
    (h : (kids.map Node.place).Perm (q.places P c.env)) :
    ((d.staying kids).map Node.place).Perm
      (((q.range P c.env).filter fun x => !d.drops x.id).map fun x => (some x.id, q.bind c.env x)) := by
  have hf := h.filter fun p => !d.drops (p.1.getD 0)
  rw [Quantifier.places, List.filter_map, List.filter_map] at hf
  exact hf

/-- A node that is affected has the branches of its formula after the edits. -/
theorem Reshaped.placed_of_affected (h : s.Follows P) (ha : s.focus.affects f = true)
    (hp : Placed P f n.cell n.kids) (hn : f.Reshaped s n n') :
    Placed s.facts.pools f n'.cell n'.kids := by
  obtain ⟨c, kids⟩ := n
  cases f with
  | quantified i q body =>
    rw [Reshaped, if_pos ha] at hn
    obtain ⟨kept, new, truths, hkept, hnew, -, rfl⟩ := hn
    refine ⟨hp.1, ?_⟩
    change ((kept ++ new).map Node.place).Perm (q.places s.facts.pools c.env)
    rw [List.map_append, Quantifier.places]
    refine List.Perm.trans ?_ ((range_perm h c.env).map _).symm
    rw [List.map_append]
    refine List.Perm.append ?_ (List.Perm.of_eq ?_)
    · rw [← Lists.map_eq_of_forall₂ hkept fun _ _ h => h.place_eq.symm]
      exact staying_places hp.2
    · exact (Lists.map_eq_of_forall₂ hnew fun _ _ h => (placed_of_grafted h).1.symm).symm
  | binary i op left right =>
    rw [Reshaped, if_pos ha] at hn
    obtain ⟨a, b, a', b', rfl, hRa, hRb, rfl⟩ := hn
    refine ⟨hp.1, fun kid hk => ?_⟩
    rcases List.mem_pair.mp hk with rfl | rfl
    · rw [hRa.place_eq]
      exact hp.2 a (by simp)
    · rw [hRb.place_eq]
      exact hp.2 b (by simp)
  | negation i body =>
    rw [Reshaped, if_pos ha] at hn
    obtain ⟨a, a', rfl, hRa, rfl⟩ := hn
    refine ⟨hp.1, fun kid hk => ?_⟩
    obtain rfl := List.mem_singleton.mp hk
    rw [hRa.place_eq]
    exact hp.2 a (by simp)
  | application i a =>
    cases hn
    exact hp

/-- **The edits make an instance** over the pools after the batch. -/
theorem Reshaped.placed (h : s.Follows P) (hp : f.Every (Placed P) n) (hn : f.Reshaped s n n') :
    f.Every (Placed s.facts.pools) n' :=
  Reshaped.every (fun ha hp => hp.placed_congr (pools_eq_of_follows h ha)) (fun hp _ => hp)
    (fun ha hp hn => hn.placed_of_affected h ha hp) hp hn

theorem Reworked.placed (h : s.Follows P) (hp : f.Every (Placed P) n) (hn : f.Reworked s n n') :
    f.Every (Placed s.facts.pools) n' :=
  hn.reshaped.placed h hp

theorem Reworked.calm (hp : f.Every (Placed P) n) (hn : f.Reworked s n n') (hc : n.Calm) :
    n'.Calm := by
  have hall : f.Every (fun _ c _ => c.pending = false) n :=
    hp.imp fun _ _ m hm _ => hc m.cell (Node.cell_mem_cells_of_mem hm)
  have hall' : f.Every (fun _ c _ => c.pending = false) n' := by
    refine hn.reshaped.every (fun _ h => h) (fun hp hb => ?_) (fun _ hc hn => ?_) hall
    · exact hp.imp fun _ _ m hm _ => calm_of_blank hb m.cell (Node.cell_mem_cells_of_mem hm)
    · obtain ⟨fresh, pruned, truths, e⟩ := hn.lasts
      rw [e]
      exact hc
  intro c hc
  rw [← Node.map_cell_subtrees] at hc
  obtain ⟨m, hm, rfl⟩ := List.mem_map.mp hc
  obtain ⟨g, -, h⟩ := hall'.exists_of_mem m hm
  exact h

section Quantified

variable {c : Cell} {kids kept new : List Node} {c' : Cell}

theorem oldKids_append (hc : c'.fresh = new.length) : (Node.mk c' (kept ++ new)).oldKids = kept := by
  rw [Node.oldKids, Node.kids_mk, Node.cell_mk, hc, List.length_append, Nat.add_sub_cancel,
    List.take_left]

theorem freshKids_append (hc : c'.fresh = new.length) :
    (Node.mk c' (kept ++ new)).freshKids = new := by
  rw [Node.freshKids, Node.kids_mk, Node.cell_mk, hc, List.length_append, Nat.add_sub_cancel,
    List.drop_left]

/-- Where the body is not affected, the branches that stay are as they were. -/
theorem kept_eq (hb : s.focus.affects body = false)
    (h : List.Forall₂ (body.Reshaped s) kids kept) : kept = kids := by
  have hall : List.Forall₂ Eq kids kept :=
    h.imp fun _ _ hab => ((reshaped_iff_of_unaffected hb).mp hab).symm
  rw [List.forall₂_eq_eq_eq] at hall
  exact hall.symm

theorem kept_bounds (h : List.Forall₂ (body.Reworked s) kids kept) :
    kept.map (fun kid => kid.cell.bound.getD 0) = kids.map fun kid => kid.cell.bound.getD 0 := by
  refine (Lists.map_eq_of_forall₂ h fun a b hab => ?_).symm
  have hb : b.cell.bound = a.cell.bound := congrArg Prod.fst hab.place_eq
  rw [hb]

theorem staying_eq {d : Delta} (h : ¬ (d.staying kids).length < kids.length) :
    d.staying kids = kids := by
  refine List.filter_eq_self.mpr (List.length_filter_eq_length_iff.mp ?_)
  have := List.length_filter_le (fun kid : Node => !d.drops (kid.cell.bound.getD 0)) kids
  unfold Delta.staying at h
  omega

theorem resting_of_kept (h : s.Follows P) {i : Nat} {q : Quantifier} (hb : s.focus.affects body = false)
    (hp : (quantified i q body).Every (Placed P) (.mk c kids))
    (hf : (quantified i q body).Every (Found r P) (.mk c kids)) (hc : (Node.mk c kids).Calm)
    (hkept : List.Forall₂ (body.Reworked s) ((s.facts.delta q.pattern).staying kids) kept)
    (hfresh : c'.fresh = new.length)
    (hpruned : c'.pruned = decide (((s.facts.delta q.pattern).staying kids).length < kids.length))
    (htruths : c'.branchTruths = Node.stagedTruths ((s.facts.delta q.pattern).staying kids))
    (htruth : c'.truth = c.truth) :
    Resting r s.facts.pools q body (.mk c' (kept ++ new)) := by
  have hpools := pools_eq_of_follows h hb
  obtain rfl := kept_eq hb (hkept.imp fun _ _ hR => hR.reshaped)
  refine ⟨?_, ?_, ?_⟩
  · rw [oldKids_append hfresh]
    intro kid hk
    exact (hf.2 kid (Delta.mem_of_mem_staying hk)).found_congr hpools
  · rw [oldKids_append hfresh]
    exact htruths
  · rw [oldKids_append hfresh]
    intro hno
    have hstay := staying_eq (of_decide_eq_false (hpruned.symm.trans hno))
    rw [hstay, Node.cell_mk, htruth, hf.1.2.1 (hc c (Node.cell_mem_cells _)), hf.1.1, holds_quantified hp.1.2]
    refine congrArg (fun l => Truth.ofBool (q.kind.fold l)) ?_
    exact List.map_congr_left fun kid _ => holds_congr _ hpools

end Quantified

/-- **The edits prepare an instance** for incremental evaluation. -/
theorem Reworked.prepared (h : s.Follows P) : ∀ {n n' : Node}, f.Every (Placed P) n →
    f.Every (Found r P) n → n.Calm → f.Reworked s n n' →
    f.Prepared r s.facts.pools s.focus n' := by
  induction f with
  | quantified i q body ih =>
    rintro ⟨c, kids⟩ n' hp hf hc hn
    rw [Reworked] at hn
    by_cases ha : s.focus.affects (quantified i q body)
    · rw [if_pos ha] at hn
      obtain ⟨kept, new, hkept, hnew, rfl⟩ := hn
      rw [Prepared, if_pos ha, oldKids_append rfl, freshKids_append rfl]
      refine ⟨fun kid hk => ?_, ?_⟩
      · obtain ⟨x, -, hx⟩ := Lists.exists_of_forall₂ hnew hk
        exact (placed_of_grafted hx).2.1.noted_of_blank (placed_of_grafted hx).2.2
      · split_ifs with hb
        · refine ⟨fun kid hk => ?_, fun id hid => ?_⟩
          · obtain ⟨kid₀, hk₀, hR⟩ := Lists.exists_of_forall₂ hkept hk
            have hk₁ := Delta.mem_of_mem_staying hk₀
            exact ih (hp.2 kid₀ hk₁) (hf.2 kid₀ hk₁) (hc.kid hk₁) hR
          · rw [List.map_append, kept_bounds hkept]
            exact List.mem_append_left _ (Node.mem_of_contains_stagedTruths hid)
        · exact resting_of_kept h (by simpa using hb) hp hf hc hkept rfl rfl rfl rfl
    · rw [if_neg ha] at hn
      rw [hn, Prepared, if_neg ha]
      exact hf.found_congr (pools_eq_of_follows h (by simpa using ha))
  | binary i op left right ihl ihr =>
    rintro ⟨c, kids⟩ n' hp hf hc hn
    rw [Reworked] at hn
    by_cases ha : s.focus.affects (binary i op left right)
    · rw [if_pos ha] at hn
      obtain ⟨a, b, a', b', rfl, hRa, hRb, rfl⟩ := hn
      obtain ⟨-, hpa, hpb⟩ := every_binary.mp hp
      obtain ⟨-, hfa, hfb⟩ := every_binary.mp hf
      rw [Prepared, if_pos ha]
      exact ⟨a', b', rfl, ihl hpa hfa (hc.kid (by simp)) hRa, ihr hpb hfb (hc.kid (by simp)) hRb⟩
    · rw [if_neg ha] at hn
      rw [hn, Prepared, if_neg ha]
      exact hf.found_congr (pools_eq_of_follows h (by simpa using ha))
  | negation i body ih =>
    rintro ⟨c, kids⟩ n' hp hf hc hn
    rw [Reworked] at hn
    by_cases ha : s.focus.affects (negation i body)
    · rw [if_pos ha] at hn
      obtain ⟨a, a', rfl, hRa, rfl⟩ := hn
      obtain ⟨-, hpa⟩ := every_negation.mp hp
      obtain ⟨-, hfa⟩ := every_negation.mp hf
      rw [Prepared, if_pos ha]
      exact ⟨a', rfl, ih hpa hfa (hc.kid (by simp)) hRa⟩
    · rw [if_neg ha] at hn
      rw [hn, Prepared, if_neg ha]
      exact hf.found_congr (pools_eq_of_follows h (by simpa using ha))
  | application i a =>
    rintro ⟨c, kids⟩ n' hp hf hc hn
    rw [hn]
    exact hf.found_congr fun _ hq => by cases hq

/-- **The edits leave links** that can be taken over or gone on with. -/
theorem Reworked.carried (h : s.Follows P) {trusted : Nat → Prop} (hp : f.Every (Placed P) n)
    (hc : f.Every (Cached r P trusted) n) (hn : f.Reworked s n n') :
    f.Every (Carried r s.facts.pools s.focus trusted) n' := by
  refine hn.reshaped.every ?_ (fun hp hb => hp.carried_of_blank hb) ?_ (hp.and hc)
  · intro g m ha hpc
    have hc := hpc.imp fun _ _ _ _ h => h.2
    refine (hc.cached_congr (pools_eq_of_follows h ha)).imp fun g' hg m' _ hc ht L hL => ?_
    rw [Focus.affects_of_subset (patterns_subset hg) ha, if_neg Bool.false_ne_true]
    exact hc ht L hL
  · rintro g ⟨c, kids⟩ m' ha ⟨hpl, hc⟩ hm ht L hL
    rw [if_pos ha]
    cases g with
    | quantified i q body =>
      rw [Reshaped, if_pos ha] at hm
      obtain ⟨kept, new, truths, hkept, -, -, rfl⟩ := hm
      intro hb hpruned l
      have hpools := pools_eq_of_follows h hb
      rw [Node.cell_mk, Node.kids_mk, oldKids_append rfl, kept_eq hb hkept,
        staying_eq (of_decide_eq_false hpruned), hc ht L hL, mem_links_of_places hpl.2]
      unfold Gathers
      simp only [holds_congr _ hpools, links_congr _ hpools, Node.kids_mk]
    | binary i op left right | negation i body | application i a => exact trivial

end Formula

/-! ## After one addition or deletion -/

/-- The deltas are those of one addition or deletion. -/
structure Setting.AfterOne (s : Setting) (change : Change) : Prop where
  focus : s.focus = .patterns [change.pattern]
  others : ∀ p, p ≠ change.pattern → s.facts.delta p = {}
  addition : change.kind = .addition → ∀ id, (s.facts.delta change.pattern).drops id = false
  deletion : change.kind = .deletion → Setting.newContexts (s.facts.delta change.pattern) = []
  kind : change.kind ≠ .update

namespace Setting.AfterOne

variable {s : Setting} {change : Change}

theorem staying_eq (h : s.AfterOne change) {p : String}
    (hk : p = change.pattern → change.kind = .addition) (kids : List Node) :
    (s.facts.delta p).staying kids = kids := by
  refine List.filter_eq_self.mpr fun kid _ => ?_
  by_cases hp : p = change.pattern
  · rw [hp, h.addition (hk hp)]
    rfl
  · rw [h.others p hp]
    simp [Delta.drops]

theorem newContexts_eq (h : s.AfterOne change) {p : String}
    (hk : ¬ (p = change.pattern ∧ change.kind = .addition)) :
    newContexts (s.facts.delta p) = [] := by
  by_cases hp : p = change.pattern
  · rw [hp]
    refine h.deletion ?_
    cases hc : change.kind with
    | addition => exact absurd ⟨hp, hc⟩ hk
    | deletion => rfl
    | update => exact absurd hc h.kind
  · rw [h.others p hp]
    unfold newContexts
    rw [Map.values_eq_map_toList, Map.values_eq_map_toList]
    simp

end Setting.AfterOne

namespace Formula

variable {s : Setting} {f : Formula} {n n' : Node} {change : Change}

/-- After one change, a quantifier gained branches only by an addition to its pattern. -/
theorem Reworked.single (h : s.AfterOne change) {p : Formula → Cell → List Node → Prop}
    (hp : f.Every p n) (hn : f.Reworked s n n') : f.Every (Single change) n' := by
  refine hn.reshaped.every ?_ (fun hp hb => hp.single_of_blank hb) ?_ hp
  · intro g m ha hg
    refine hg.imp fun g' hg' _ _ _ hr => ?_
    have := Focus.affects_of_subset (patterns_subset hg') ha
    rw [h.focus, Focus.affects, hr] at this
    cases this
  · rintro g ⟨c, kids⟩ m' ha - hm
    cases g with
    | quantified i q body =>
      rw [Reshaped, if_pos ha] at hm
      obtain ⟨kept, new, truths, -, hnew, -, rfl⟩ := hm
      intro _
      change if _ then decide _ = false else new.length = 0
      split_ifs with hq
      · rw [h.staying_eq fun _ => hq.2]
        exact decide_eq_false (Nat.lt_irrefl _)
      · rw [h.newContexts_eq hq, List.filter_nil, List.forall₂_nil_left_iff] at hnew
        rw [hnew, List.length_nil]
    | binary i op left right | negation i body | application i a => exact fun _ => trivial

end Formula

end RuleMonitor
