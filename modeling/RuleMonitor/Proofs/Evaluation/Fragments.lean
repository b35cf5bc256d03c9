import RuleMonitor.Evaluation.Full
import RuleMonitor.Proofs.Routines
import RuleMonitor.Proofs.Instances.Invariants

/-!
# Fragments in slots

The instantiation of a formula is a fragment that depends on the pools alone. Put into slots, it takes
them one by one, and its nodes have the branches of the formula.

* `Formula.fragment`, **`Setting.instantiate_yields`**: the fragment of a formula.
* `Fragment.place_eq`: the slots taken and the slots left; `Fragment.blank_place`.
* **`Formula.placed_fragment`**: the fragment in slots is an instance.
-/

namespace RuleMonitor

namespace Formula

/-- The instantiation of a formula over pools. -/
def fragment (P : Pools) : Formula → Env → Option Nat → Fragment
  | quantified i q body, env, bound =>
    .mk i env bound ((q.range P env).map fun c => fragment P body (q.bind env c) (some c.id))
  | binary i _ left right, env, bound =>
    .mk i env bound [fragment P left env none, fragment P right env none]
  | negation i body, env, bound => .mk i env bound [fragment P body env none]
  | application i _, env, bound => .mk i env bound []

end Formula

/-- **Instantiation** yields the fragment of the formula. -/
theorem Setting.instantiate_yields (s : Setting) (f : Formula) : ∀ (env : Env) (bound : Option Nat),
    (s.instantiate f env bound).Yields (f.fragment s.facts.pools env bound) := by
  induction f with
  | quantified i q body ih =>
    intro env bound
    refine (s.yields_forBranches i ?_).bind (Eval.yields_pure _)
    rw [List.forall₂_map_right_iff]
    exact List.forall₂_same.mpr fun c _ => ih _ _
  | binary i op left right ihl ihr =>
    intro env bound
    exact (ihl env none).bind ((ihr env none).bind (Eval.yields_pure _))
  | negation i body ih =>
    intro env bound
    exact (ih env none).bind (Eval.yields_pure _)
  | application i a => exact fun env bound => Eval.yields_pure _

namespace Fragment

@[elab_as_elim]
theorem induct {motive : Fragment → Prop}
    (mk : ∀ formula env bound kids, (∀ kid ∈ kids, motive kid) →
      motive (mk formula env bound kids)) : ∀ fr, motive fr := by
  intro fr
  refine @Fragment.rec motive (fun kids => ∀ kid ∈ kids, motive kid) mk ?_ ?_ fr
  · nofun
  · intro kid kids h hs k hk
    rcases List.mem_cons.mp hk with rfl | hk
    · exact h
    · exact hs k hk

theorem place_mk (slots : List Nat) (formula : Nat) (env : Env) (bound : Option Nat)
    (kids : List Fragment) : (mk formula env bound kids).place slots =
      (.mk { index := slots.headD 0, formula, env, bound } (placeAll (slots.drop 1) kids).1,
        (placeAll (slots.drop 1) kids).2) := rfl

theorem placeAll_cons (slots : List Nat) (fr : Fragment) (frs : List Fragment) :
    placeAll slots (fr :: frs) =
      ((fr.place slots).1 :: (placeAll (fr.place slots).2 frs).1,
        (placeAll (fr.place slots).2 frs).2) := rfl

theorem placeAll_forall₂ (frs : List Fragment) : ∀ slots : List Nat,
    List.Forall₂ (fun fr n => ∃ slots', n = (place slots' fr).1) frs (placeAll slots frs).1 := by
  induction frs with
  | nil => exact fun _ => .nil
  | cons fr frs ih =>
    intro slots
    rw [placeAll_cons]
    exact .cons ⟨slots, rfl⟩ (ih _)

theorem place_eq (fr : Fragment) : ∀ slots : List Nat, fr.size ≤ slots.length →
    (fr.place slots).1.indices = slots.take fr.size ∧
      (fr.place slots).2 = slots.drop fr.size := by
  induction fr using induct with
  | mk formula env bound kids ih =>
    have hall : ∀ slots : List Nat, sizeAll kids ≤ slots.length →
        (placeAll slots kids).1.flatMap Node.indices = slots.take (sizeAll kids) ∧
          (placeAll slots kids).2 = slots.drop (sizeAll kids) := by
      induction kids with
      | nil => exact fun _ _ => ⟨rfl, rfl⟩
      | cons fr frs ihs =>
        intro slots h
        rw [sizeAll] at h ⊢
        obtain ⟨h₁, h₂⟩ := ih fr List.mem_cons_self slots (by omega)
        have hl : sizeAll frs ≤ (slots.drop fr.size).length := by
          rw [List.length_drop]
          omega
        obtain ⟨h₃, h₄⟩ := ihs (fun k hk => ih k (List.mem_cons_of_mem _ hk)) _ hl
        rw [placeAll_cons, h₂]
        simp only
        rw [List.flatMap_cons, h₁, h₃, h₄, List.drop_drop, List.take_add]
        exact ⟨rfl, rfl⟩
    intro slots h
    rw [size] at h ⊢
    cases slots with
    | nil => simp at h
    | cons slot slots =>
      rw [List.length_cons] at h
      obtain ⟨h₁, h₂⟩ := hall slots (by omega)
      rw [place_mk, Node.indices_mk]
      simp only [List.drop_succ_cons, List.drop_zero, List.headD_cons, List.take_succ_cons]
      exact ⟨by rw [h₁], h₂⟩

theorem blank_place (fr : Fragment) : ∀ slots : List Nat, (fr.place slots).1.Blank := by
  induction fr using induct with
  | mk formula env bound kids ih =>
    intro slots
    rw [place_mk, Node.Blank, Node.cells_mk, List.forall_mem_cons]
    refine ⟨rfl, fun c hc => ?_⟩
    obtain ⟨n, hn, hc⟩ := List.mem_flatMap.mp hc
    have hall := placeAll_forall₂ kids (slots.drop 1)
    obtain ⟨fr, hfr, slots', rfl⟩ : ∃ fr ∈ kids, ∃ slots', n = (place slots' fr).1 := by
      obtain ⟨i, hi, rfl⟩ := List.getElem_of_mem hn
      have hik : i < kids.length := hall.length_eq ▸ hi
      exact ⟨kids[i], List.getElem_mem hik, hall.get hik hi⟩
    exact ih fr hfr slots' c hc

end Fragment

namespace Formula

variable {P : Pools}

/-- The formulas of a fragment are nodes of the draft that the formula is read from. -/
theorem formulas_fragment {nodes : List Shape} {f : Formula} (h : f.ReadFrom nodes) :
    ∀ {env : Env} {bound : Option Nat}, ∀ i ∈ (f.fragment P env bound).formulas,
      i < nodes.length := by
  have hall {frs : List Fragment} (h : ∀ fr ∈ frs, ∀ i ∈ fr.formulas, i < nodes.length) :
      ∀ i ∈ Fragment.formulasAll frs, i < nodes.length := by
    induction frs with
    | nil => nofun
    | cons fr frs ih =>
      rw [List.forall_mem_cons] at h
      intro i hi
      rcases List.mem_append.mp hi with hi | hi
      · exact h.1 i hi
      · exact ih h.2 i hi
  have hlt := h.index_lt
  induction f with
  | quantified i q body ih =>
    intro env bound j hj
    rcases List.mem_cons.mp hj with rfl | hj
    · exact hlt
    · refine hall (fun fr hfr => ?_) j hj
      obtain ⟨c, -, rfl⟩ := List.mem_map.mp hfr
      exact ih h.2 h.2.index_lt
  | binary i op left right ihl ihr =>
    intro env bound j hj
    rcases List.mem_cons.mp hj with rfl | hj
    · exact hlt
    · refine hall (fun fr hfr => ?_) j hj
      rcases List.mem_pair.mp hfr with rfl | rfl
      · exact ihl h.2.1 h.2.1.index_lt
      · exact ihr h.2.2 h.2.2.index_lt
  | negation i body ih =>
    intro env bound j hj
    rcases List.mem_cons.mp hj with rfl | hj
    · exact hlt
    · refine hall (fun fr hfr => ?_) j hj
      obtain rfl := List.mem_singleton.mp hfr
      exact ih h.2 h.2.index_lt
  | application i a =>
    intro env bound j hj
    obtain rfl := List.mem_singleton.mp hj
    exact hlt

theorem place_fragment (f : Formula) (env : Env) (bound : Option Nat) (slots : List Nat) :
    ((f.fragment P env bound).place slots).1.place = (bound, env) := by
  cases f <;> rfl

/-- **A fragment in slots** is an instance over the pools. -/
theorem placed_fragment (f : Formula) : ∀ (env : Env) (bound : Option Nat) (slots : List Nat),
    f.Every (Placed P) ((f.fragment P env bound).place slots).1 := by
  induction f with
  | quantified i q body ih =>
    intro env bound slots
    rw [fragment, Fragment.place_mk]
    have hall := Fragment.placeAll_forall₂
      ((q.range P env).map fun c => body.fragment P (q.bind env c) (some c.id)) (slots.drop 1)
    rw [List.forall₂_map_left_iff] at hall
    refine ⟨⟨rfl, List.Perm.of_eq (Lists.map_eq_of_forall₂ hall ?_).symm⟩, fun kid hk => ?_⟩
    · rintro c kid ⟨slots', rfl⟩
      exact (place_fragment body _ _ _).symm
    · obtain ⟨c, -, slots', rfl⟩ := Lists.exists_of_forall₂ hall hk
      exact ih _ _ _
  | binary i op left right ihl ihr =>
    intro env bound slots
    rw [fragment, Fragment.place_mk, Fragment.placeAll_cons, Fragment.placeAll_cons]
    refine ⟨⟨rfl, fun kid hk => ?_⟩, _, _, rfl, ihl env none _, ihr env none _⟩
    rcases List.mem_pair.mp hk with rfl | rfl
    · exact place_fragment left env none _
    · exact place_fragment right env none _
  | negation i body ih =>
    intro env bound slots
    rw [fragment, Fragment.place_mk, Fragment.placeAll_cons]
    refine ⟨⟨rfl, fun kid hk => ?_⟩, _, rfl, ih env none _⟩
    obtain rfl := List.mem_singleton.mp hk
    exact place_fragment body env none _
  | application i a => exact fun env bound slots => ⟨⟨rfl, nofun⟩, rfl⟩

end Formula

end RuleMonitor
