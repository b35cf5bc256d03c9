import RuleMonitor.Proofs.Witnesses

/-!
# Kinds of links and minimal links

All links of a formula are of one kind, which its truth decides: a true formula has links that satisfy
it, a false one links that violate it. Reducing links to minimal ones compares links of one kind only,
so it is right because of that: no minimal link binds more than another one, and every link includes
some minimal link.

* `LinkKind.ofTruth`; `LinkSet.OfKind`: the links are all of one kind, with the operations on sets.
* **`Formula.links_ofKind`**: the kind of the links of a formula.
* `Link.Within`: the bindings of a link are among those of another one.
* **`LinkSet.eq_of_within_minimal`**, **`LinkSet.exists_minimal_within`**: minimal links.
* **`Formula.exists_minimal_binding_iff`**: what the minimal links of a universal quantifier bind.
-/

namespace RuleMonitor

open Std (ExtTreeMap ExtTreeSet)

/-- The kind of the links that explain a truth. -/
def LinkKind.ofTruth (b : Bool) : LinkKind :=
  if b then satisfied else violated

theorem LinkKind.flip_ofTruth (b : Bool) : (ofTruth b).flip = ofTruth !b := by
  cases b <;> rfl

/-- A quantifier generates links of the kind that its witnesses explain. -/
theorem QuantifierKind.linkKind_eq (k : QuantifierKind) : k.linkKind = .ofTruth k.witnessTruth := by
  cases k <;> rfl

namespace LinkSet

variable {s t : LinkSet} {k : LinkKind}

/-- All links of the set are of a kind. -/
def OfKind (s : LinkSet) (k : LinkKind) : Prop :=
  ∀ l ∈ s, l.kind = k

theorem ofKind_empty (k : LinkKind) : (∅ : LinkSet).OfKind k :=
  fun _ hl => absurd hl ExtTreeSet.not_mem_empty

theorem OfKind.union (hs : s.OfKind k) (ht : t.OfKind k) : (s ∪ t : LinkSet).OfKind k :=
  fun l hl => (ExtTreeSet.mem_union_iff.mp hl).elim (hs l) (ht l)

theorem OfKind.flipped (hs : s.OfKind k) : s.flipped.OfKind k.flip := by
  intro l hl
  obtain ⟨l₀, h₀, rfl⟩ := mem_image.mp hl
  exact congrArg LinkKind.flip (hs l₀ h₀)

/-- The unions of links are of the kind of the first, and one of them may be missing. -/
theorem OfKind.product (hs : s.OfKind k) (ht : t.OfKind k) : (s.product t).OfKind k := by
  cases hse : s.isEmpty with
  | true =>
    unfold LinkSet.product
    rwa [hse, if_pos rfl]
  | false =>
    cases hte : t.isEmpty with
    | true =>
      unfold LinkSet.product
      rwa [hse, hte, if_neg Bool.false_ne_true, if_pos rfl]
    | false =>
      intro l hl
      obtain ⟨a, ha, b, -, rfl⟩ := (mem_product hse hte).mp hl
      exact hs a ha

theorem ofKind_withBinding (s : LinkSet) (k : LinkKind) (v : String) (id : Nat) :
    (s.withBinding k v id).OfKind k := by
  intro l hl
  unfold withBinding at hl
  split_ifs at hl
  · rw [ExtTreeSet.mem_ofList, List.contains_iff_mem, List.mem_singleton] at hl
    rw [hl]
  · obtain ⟨l₀, -, rfl⟩ := mem_image.mp hl
    rfl

theorem exists_mem_withBinding (s : LinkSet) (k : LinkKind) (v : String) (id : Nat) :
    ∃ l, l ∈ s.withBinding k v id := by
  unfold withBinding
  cases hs : s.isEmpty with
  | true =>
    refine ⟨⟨k, (∅ : Bindings).insert v id⟩, ?_⟩
    rw [if_pos rfl, ExtTreeSet.mem_ofList, List.contains_iff_mem]
    exact List.mem_cons_self
  | false =>
    obtain ⟨l, hl⟩ : ∃ l, l ∈ s := by
      by_contra hnone
      have he : s = ∅ := ExtTreeSet.eq_empty_iff_forall_not_mem.mpr (not_exists.mp hnone)
      rw [ExtTreeSet.isEmpty_iff.mpr he] at hs
      cases hs
    exact ⟨l.bind k v id, mem_image.mpr ⟨l, hl, rfl⟩⟩

end LinkSet

/-- The links of a connective are of the kind of its truth if those of its operands are. -/
theorem Connective.explain_ofKind (op : Connective) {a b : Bool} {left right : LinkSet}
    (hl : left.OfKind (.ofTruth a)) (hr : right.OfKind (.ofTruth b)) :
    (op.explain (op.eval a b) a b left right).OfKind (.ofTruth (op.eval a b)) := by
  have hflip : left.flipped.OfKind (.ofTruth !a) := by
    rw [← LinkKind.flip_ofTruth]
    exact hl.flipped
  -- In each row of a truth table, the operands taken have the truth of the connective, or the other
  -- one if the connective negates them.
  cases op <;> cases a <;> cases b
  case and.true.true => exact hl.product hr
  case or.false.false => exact hl.product hr
  case implies.true.false => exact hflip.product hr
  case and.false.true | or.true.false => exact hl.union (LinkSet.ofKind_empty _)
  case and.true.false | or.false.true => exact (LinkSet.ofKind_empty _).union hr
  case and.false.false | or.true.true => exact hl.union hr
  case implies.false.false => exact hflip.union (LinkSet.ofKind_empty _)
  case implies.false.true => exact hflip.union hr
  case implies.true.true => exact (LinkSet.ofKind_empty _).union hr

/-- **The kind of the links of a formula** is that of its truth. -/
theorem Formula.links_ofKind {r : Registry} {P : Pools} {f : Formula} : ∀ {env : Env},
    (f.links r P env).OfKind (.ofTruth (f.holds r P env)) := by
  induction f with
  | quantified i q body ih =>
    intro env l hl
    obtain ⟨c, hc, hwitness, hl⟩ := mem_links_quantified.mp hl
    have htruth : (quantified i q body).holds r P env = q.kind.witnessTruth :=
      QuantifierKind.fold_of_witness (List.mem_map.mpr ⟨c, hc, hwitness⟩)
    rw [htruth, LinkSet.ofKind_withBinding _ _ _ _ l hl, QuantifierKind.linkKind_eq]
  | binary i op left right ihl ihr => exact op.explain_ofKind ihl ihr
  | negation i body ih =>
    intro env
    have hbody : (body.links r P env).OfKind (.ofTruth (body.holds r P env)) := ih
    have hflip := hbody.flipped
    rwa [LinkKind.flip_ofTruth] at hflip
  | application i a => exact LinkSet.ofKind_empty _

/-! ## Minimal links -/

namespace Link

variable {l m : Link}

/-- The bindings of the link are among those of `m`. -/
def Within (l m : Link) : Prop :=
  ∀ (v : String) (id : Nat), l.bindings[v]? = some id → m.bindings[v]? = some id

theorem Within.refl (l : Link) : l.Within l := fun _ _ h => h

theorem Within.trans {o : Link} (h : l.Within m) (h' : m.Within o) : l.Within o :=
  fun v id hl => h' v id (h v id hl)

theorem within_iff : l.Within m ↔ ∀ e ∈ l.entries, m.bindings[e.1]? = some e.2 := by
  unfold Within entries
  constructor
  · exact fun h e he => h e.1 e.2 (ExtTreeMap.mem_toList_iff_getElem?_eq_some.mp he)
  · exact fun h v id hl => h (v, id) (ExtTreeMap.mem_toList_iff_getElem?_eq_some.mpr hl)

theorem subsumedBy_iff : l.subsumedBy m = true ↔
    l.kind = m.kind ∧ m.bindings.size < l.bindings.size ∧ m.Within l := by
  rw [within_iff, subsumedBy, Bool.and_eq_true, Bool.and_eq_true, decide_eq_true_eq, decide_eq_true_eq,
    List.all_eq_true, and_assoc]
  simp only [decide_eq_true_eq]

theorem Within.bindings_eq (h : l.Within m) (hs : m.bindings.size ≤ l.bindings.size) :
    l.bindings = m.bindings := by
  have hnd : l.entries.Nodup := (Map.nodup_map_fst_toList l.bindings).of_map
  have hsub : l.entries ⊆ m.entries := fun e he =>
    ExtTreeMap.mem_toList_iff_getElem?_eq_some.mpr (within_iff.mp h e he)
  have hlen : m.entries.length ≤ l.entries.length := by
    unfold entries
    rwa [ExtTreeMap.length_toList, ExtTreeMap.length_toList]
  have hperm : l.entries.Perm m.entries := (List.subperm_of_subset hnd hsub).perm_of_length_le hlen
  refine ExtTreeMap.ext_getElem? fun v => Option.ext fun id => ?_
  rw [← ExtTreeMap.mem_toList_iff_getElem?_eq_some, ← ExtTreeMap.mem_toList_iff_getElem?_eq_some]
  exact hperm.mem_iff

end Link

namespace LinkSet

variable {s : LinkSet} {k : LinkKind} {l m : Link}

theorem mem_minimal : l ∈ s.minimal ↔ l ∈ s ∧ ∀ m ∈ s, l.subsumedBy m = false := by
  unfold minimal
  simp only
  rw [List.mem_filter, ExtTreeSet.mem_toList, Bool.not_eq_true', List.any_eq_false]
  simp only [ExtTreeSet.mem_toList, Bool.not_eq_true]

/-- **No minimal link binds strictly more** than another one, if all links are of one kind. -/
theorem eq_of_within_minimal (hk : s.OfKind k) (hl : l ∈ s.minimal) (hm : m ∈ s.minimal)
    (h : m.Within l) : m = l := by
  have hkind : l.kind = m.kind := (hk l (mem_of_mem_minimal hl)).trans (hk m (mem_of_mem_minimal hm)).symm
  have hsize : l.bindings.size ≤ m.bindings.size := by
    by_contra hlt
    have hsub := Link.subsumedBy_iff.mpr ⟨hkind, Nat.lt_of_not_le hlt, h⟩
    rw [(mem_minimal.mp hl).2 m (mem_of_mem_minimal hm)] at hsub
    exact Bool.false_ne_true hsub
  exact Link.ext_bindings hkind.symm fun w => by rw [h.bindings_eq hsize]

/-- **Every link includes a minimal link.** -/
theorem exists_minimal_within (hl : l ∈ s) : ∃ m ∈ s.minimal, m.Within l := by
  -- A link that is not minimal includes one that binds less.
  induction hn : l.bindings.size using Nat.strongRecOn generalizing l with
  | ind n ih =>
    by_cases hsub : ∃ o ∈ s, l.subsumedBy o = true
    · obtain ⟨o, ho, hsub⟩ := hsub
      obtain ⟨-, hlt, hwithin⟩ := Link.subsumedBy_iff.mp hsub
      obtain ⟨m, hm, hmo⟩ := ih _ (hn ▸ hlt) ho rfl
      exact ⟨m, hm, hmo.trans hwithin⟩
    · refine ⟨l, mem_minimal.mpr ⟨hl, fun o ho => ?_⟩, Link.Within.refl l⟩
      exact Bool.eq_false_iff.mpr fun h => hsub ⟨o, ho, h⟩

end LinkSet

/-- **The contexts that minimal links bind** to the variable of a quantifier are those of its
witnesses. -/
theorem Formula.exists_minimal_binding_iff {r : Registry} {P : Pools} {i : Nat} {q : Quantifier}
    {body : Formula} {env : Env} {id : Nat} :
    (∃ l ∈ ((quantified i q body).links r P env).minimal, l.bindings[q.var]? = some id) ↔
      ∃ c ∈ q.range P env, c.id = id ∧ body.holds r P (q.bind env c) = q.kind.witnessTruth := by
  have hvar : ∀ {c : Context} {s : LinkSet} {l : Link},
      l ∈ s.withBinding q.kind.linkKind q.var c.id → l.bindings[q.var]? = some c.id := by
    intro c s l hl
    rcases mem_withBinding hl with ⟨x, -, hx⟩ | hx <;> rw [hx, if_pos rfl]
  constructor
  · rintro ⟨l, hl, hbind⟩
    obtain ⟨c, hc, hwitness, hl⟩ := mem_links_quantified.mp (LinkSet.mem_of_mem_minimal hl)
    rw [hvar hl] at hbind
    exact ⟨c, hc, Option.some.inj hbind, hwitness⟩
  · rintro ⟨c, hc, rfl, hwitness⟩
    -- Some link of the branch is there, and the minimal link within it binds the variable too.
    obtain ⟨l, hl⟩ : ∃ l, l ∈ (body.links r P (q.bind env c)).withBinding q.kind.linkKind q.var c.id :=
      LinkSet.exists_mem_withBinding _ _ _ _
    obtain ⟨m, hm, hwithin⟩ := LinkSet.exists_minimal_within
      (mem_links_quantified.mpr ⟨c, hc, hwitness, hl⟩)
    obtain ⟨c', -, -, hm'⟩ := mem_links_quantified.mp (LinkSet.mem_of_mem_minimal hm)
    have hc' := hwithin q.var c'.id (hvar hm')
    rw [hvar hl] at hc'
    exact ⟨m, hm, (hvar hm').trans hc'.symm⟩

end RuleMonitor
