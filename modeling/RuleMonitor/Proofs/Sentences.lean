import Mathlib.Data.List.Nodup
import RuleMonitor.Formula.Sentence
import RuleMonitor.Proofs.Routines

/-!
# Sentences that are well formed

The formula of a sentence is read from the nodes of a draft. Each of its nodes agrees with the node of
the draft at its index, every variable occurs below the quantifier that binds it, and no variable and
no pattern is bound twice.

* `Formula.quantifiers`, `Formula.Scoped`, `Formula.ReadFrom`: the parts of being well formed.
* **`Sentence.wellFormed_of_build`**: a sentence that is built is well formed.
* `Formula.ReadFrom.quantifier?_eq`: the node of the draft at the index of a formula.
-/

namespace RuleMonitor

namespace Formula

/-- The quantifiers in pre-order. -/
def quantifiers : Formula → List Quantifier
  | quantified _ q body => q :: body.quantifiers
  | binary _ _ left right => left.quantifiers ++ right.quantifiers
  | negation _ body => body.quantifiers
  | application .. => []

/-- The variables bound, in pre-order. -/
def vars (f : Formula) : List String :=
  f.quantifiers.map (·.var)

/-- The patterns quantified over, in pre-order. -/
def patterns (f : Formula) : List String :=
  f.quantifiers.map (·.pattern)

/-- The quantifier at the root, if there is one. -/
def quantifier? : Formula → Option Quantifier
  | quantified _ q _ => some q
  | _ => none

/-- Below variables in scope, quantifiers bind new variables, filters depend on variables in scope, and
predicates are applied to such. -/
def Scoped : List String → Formula → Prop
  | scope, quantified _ q body =>
    q.var ∉ scope ∧ (∀ filter ∈ q.filter, filter.dep ∈ scope) ∧ Scoped (q.var :: scope) body
  | scope, binary _ _ left right => Scoped scope left ∧ Scoped scope right
  | scope, negation _ body => Scoped scope body
  | scope, application _ a => ∀ p ∈ a.params, p.2 ∈ scope

/-- The nodes of the formula are those of a draft. -/
def ReadFrom (nodes : List Shape) : Formula → Prop
  | quantified i q body => nodes[i]? = some (.quantified q body.index) ∧ ReadFrom nodes body
  | binary i op left right =>
    nodes[i]? = some (.binary op left.index right.index) ∧ ReadFrom nodes left ∧ ReadFrom nodes right
  | negation i body => nodes[i]? = some (.negation body.index) ∧ ReadFrom nodes body
  | application i a => nodes[i]? = some (.application a)

@[simp] theorem vars_quantified (i : Nat) (q : Quantifier) (body : Formula) :
    (quantified i q body).vars = q.var :: body.vars := rfl

@[simp] theorem vars_binary (i : Nat) (op : Connective) (left right : Formula) :
    (binary i op left right).vars = left.vars ++ right.vars := List.map_append

@[simp] theorem patterns_quantified (i : Nat) (q : Quantifier) (body : Formula) :
    (quantified i q body).patterns = q.pattern :: body.patterns := rfl

@[simp] theorem patterns_binary (i : Nat) (op : Connective) (left right : Formula) :
    (binary i op left right).patterns = left.patterns ++ right.patterns := List.map_append

@[simp] theorem patterns_negation (i : Nat) (body : Formula) :
    (negation i body).patterns = body.patterns := rfl

@[simp] theorem patterns_application (i : Nat) (a : Application) :
    (application i a).patterns = [] := rfl

theorem mem_subformulas_self (f : Formula) : f ∈ f.subformulas := by
  cases f <;> exact List.mem_cons_self

theorem quantifiers_sublist {f g : Formula} (h : g ∈ f.subformulas) :
    g.quantifiers.Sublist f.quantifiers := by
  induction f with
  | quantified i q body ih =>
    rcases List.mem_cons.mp h with rfl | h
    · exact .refl _
    · exact (ih h).cons _
  | binary i op left right ihl ihr =>
    rcases List.mem_cons.mp h with rfl | h
    · exact .refl _
    · rcases List.mem_append.mp h with h | h
      · exact (ihl h).trans (List.sublist_append_left _ _)
      · exact (ihr h).trans (List.sublist_append_right _ _)
  | negation i body ih =>
    rcases List.mem_cons.mp h with rfl | h
    · exact .refl _
    · exact ih h
  | application i a =>
    obtain rfl := List.mem_singleton.mp h
    exact .refl _

theorem quantifiers_subset {f g : Formula} (h : g ∈ f.subformulas) :
    g.quantifiers ⊆ f.quantifiers :=
  (quantifiers_sublist h).subset

theorem vars_subset {f g : Formula} (h : g ∈ f.subformulas) : g.vars ⊆ f.vars :=
  List.map_subset _ (quantifiers_subset h)

theorem patterns_subset {f g : Formula} (h : g ∈ f.subformulas) : g.patterns ⊆ f.patterns :=
  List.map_subset _ (quantifiers_subset h)

/-- **A pattern is quantified over at one place.** -/
theorem eq_of_pattern_eq {f : Formula} : f.patterns.Nodup → ∀ {i j : Nat} {q q' : Quantifier}
    {body body' : Formula}, quantified i q body ∈ f.subformulas →
    quantified j q' body' ∈ f.subformulas → q.pattern = q'.pattern →
    quantified i q body = quantified j q' body' := by
  have inner : ∀ {g : Formula} {i : Nat} {q : Quantifier} {body : Formula},
      quantified i q body ∈ g.subformulas → q.pattern ∈ g.patterns := fun h =>
    patterns_subset h List.mem_cons_self
  induction f with
  | quantified k q₀ body₀ ih =>
    intro hd i j q q' body body' h h' e
    rw [patterns_quantified, List.nodup_cons] at hd
    rcases List.mem_cons.mp h with h | h <;> rcases List.mem_cons.mp h' with h' | h'
    · exact h.trans h'.symm
    · cases h
      exact absurd (e ▸ inner h') hd.1
    · cases h'
      exact absurd (e ▸ inner h) hd.1
    · exact ih hd.2 h h' e
  | binary k op left right ihl ihr =>
    intro hd i j q q' body body' h h' e
    rw [patterns_binary, List.nodup_append] at hd
    have h := List.mem_append.mp ((List.mem_cons.mp h).resolve_left nofun)
    have h' := List.mem_append.mp ((List.mem_cons.mp h').resolve_left nofun)
    rcases h with h | h <;> rcases h' with h' | h'
    · exact ihl hd.1 h h' e
    · exact absurd e (hd.2.2 _ (inner h) _ (inner h'))
    · exact absurd e.symm (hd.2.2 _ (inner h') _ (inner h))
    · exact ihr hd.2.1 h h' e
  | negation k body₀ ih =>
    intro hd i j q q' body body' h h'
    exact ih hd ((List.mem_cons.mp h).resolve_left nofun) ((List.mem_cons.mp h').resolve_left nofun)
  | application k a =>
    intro hd i j q q' body body' h
    exact absurd (List.mem_singleton.mp h) nofun

theorem mem_of_at? {f g : Formula} {i : Nat} (h : f.at? i = some g) :
    g ∈ f.subformulas ∧ g.index = i := by
  induction f with
  | quantified k q body ih =>
    rw [at?] at h
    split_ifs at h with hk
    · cases h
      exact ⟨mem_subformulas_self _, hk⟩
    · exact ⟨List.mem_cons_of_mem _ (ih h).1, (ih h).2⟩
  | binary k op left right ihl ihr =>
    rw [at?] at h
    split_ifs at h with hk
    · cases h
      exact ⟨mem_subformulas_self _, hk⟩
    · cases hl : left.at? i with
      | some g' =>
        rw [hl] at h
        cases h
        exact ⟨List.mem_cons_of_mem _ (List.mem_append_left _ (ihl hl).1), (ihl hl).2⟩
      | none =>
        rw [hl] at h
        exact ⟨List.mem_cons_of_mem _ (List.mem_append_right _ (ihr h).1), (ihr h).2⟩
  | negation k body ih =>
    rw [at?] at h
    split_ifs at h with hk
    · cases h
      exact ⟨mem_subformulas_self _, hk⟩
    · exact ⟨List.mem_cons_of_mem _ (ih h).1, (ih h).2⟩
  | application k a =>
    rw [at?] at h
    split_ifs at h with hk
    cases h
    exact ⟨mem_subformulas_self _, hk⟩

theorem exists_at? {f g : Formula} (hg : g ∈ f.subformulas) : ∃ g', f.at? g.index = some g' := by
  induction f with
  | quantified k q body ih | negation k body ih =>
    rw [at?]
    split_ifs with hk
    · exact ⟨_, rfl⟩
    · rcases List.mem_cons.mp hg with rfl | hg
      · exact absurd rfl hk
      · exact ih hg
  | binary k op left right ihl ihr =>
    rw [at?]
    split_ifs with hk
    · exact ⟨_, rfl⟩
    · cases hl : left.at? g.index with
      | some g' => exact ⟨g', rfl⟩
      | none =>
        rcases List.mem_cons.mp hg with rfl | hg
        · exact absurd rfl hk
        · rcases List.mem_append.mp hg with hg | hg
          · obtain ⟨g', hg'⟩ := ihl hg
            cases hl.symm.trans hg'
          · exact ihr hg
  | application k a =>
    obtain rfl := List.mem_singleton.mp hg
    exact ⟨_, if_pos rfl⟩

theorem map_quantifier_binders (f : Formula) : ∀ positive : Bool,
    (f.binders positive).map (·.quantifier) = f.quantifiers := by
  induction f with
  | quantified k q body ih => exact fun positive => congrArg (q :: ·) (ih positive)
  | binary k op left right ihl ihr =>
    intro positive
    rw [binders, List.map_append, ihl, ihr, quantifiers]
  | negation k body ih => exact fun positive => ih !positive
  | application k a => exact fun _ => rfl

theorem exists_of_mem_binders {f : Formula} {b : Binder} : ∀ {positive : Bool},
    b ∈ f.binders positive → ∃ body, quantified b.index b.quantifier body ∈ f.subformulas := by
  induction f with
  | quantified k q body ih =>
    intro positive hb
    rcases List.mem_cons.mp hb with rfl | hb
    · exact ⟨body, mem_subformulas_self _⟩
    · exact (ih hb).imp fun _ h => List.mem_cons_of_mem _ h
  | binary k op left right ihl ihr =>
    intro positive hb
    rcases List.mem_append.mp hb with hb | hb
    · exact (ihl hb).imp fun _ h => List.mem_cons_of_mem _ (List.mem_append_left _ h)
    · exact (ihr hb).imp fun _ h => List.mem_cons_of_mem _ (List.mem_append_right _ h)
  | negation k body ih =>
    exact fun hb => (ih hb).imp fun _ h => List.mem_cons_of_mem _ h
  | application k a => exact fun hb => absurd hb List.not_mem_nil

theorem ranges_iff {ps : List String} {f : Formula} :
    f.ranges ps = true ↔ ∃ p ∈ f.patterns, p ∈ ps := by
  induction f with
  | quantified i q body ih =>
    rw [ranges, Bool.or_eq_true, ih, patterns_quantified, List.exists_mem_cons_iff,
      List.contains_iff_mem]
  | binary i op left right ihl ihr =>
    simp only [ranges, Bool.or_eq_true, ihl, ihr, patterns_binary, List.mem_append, or_and_right,
      exists_or]
  | negation i body ih => rw [ranges, ih, patterns_negation]
  | application i a => simp [ranges]

theorem ReadFrom.of_mem {nodes : List Shape} {f g : Formula} (h : f.ReadFrom nodes)
    (hg : g ∈ f.subformulas) : g.ReadFrom nodes := by
  induction f with
  | quantified i q body ih =>
    rcases List.mem_cons.mp hg with rfl | hg
    · exact h
    · exact ih h.2 hg
  | binary i op left right ihl ihr =>
    rcases List.mem_cons.mp hg with rfl | hg
    · exact h
    · rcases List.mem_append.mp hg with hg | hg
      · exact ihl h.2.1 hg
      · exact ihr h.2.2 hg
  | negation i body ih =>
    rcases List.mem_cons.mp hg with rfl | hg
    · exact h
    · exact ih h.2 hg
  | application i a =>
    obtain rfl := List.mem_singleton.mp hg
    exact h

theorem ReadFrom.eq_of_index_eq {nodes : List Shape} {f g : Formula} (hf : f.ReadFrom nodes)
    (hg : g.ReadFrom nodes) (e : f.index = g.index) : f = g := by
  have same {i j : Nat} {x y : Shape} (hx : nodes[i]? = some x) (hy : nodes[j]? = some y)
      (e : i = j) : x = y := Option.some.inj (hx.symm.trans ((congrArg (nodes[·]?) e).trans hy))
  induction f generalizing g with
  | quantified i q body ih =>
    cases g with
    | quantified j q' body' =>
      obtain ⟨rfl, hb⟩ := Shape.quantified.inj (same hf.1 hg.1 e)
      rw [ih hf.2 hg.2 hb, show i = j from e]
    | binary j op l r | negation j b => nomatch same hf.1 hg.1 e
    | application j a => nomatch same hf.1 hg e
  | binary i op left right ihl ihr =>
    cases g with
    | binary j op' left' right' =>
      obtain ⟨rfl, hl, hr⟩ := Shape.binary.inj (same hf.1 hg.1 e)
      rw [ihl hf.2.1 hg.2.1 hl, ihr hf.2.2 hg.2.2 hr, show i = j from e]
    | quantified j q b | negation j b => nomatch same hf.1 hg.1 e
    | application j a => nomatch same hf.1 hg e
  | negation i body ih =>
    cases g with
    | negation j body' =>
      have hb := Shape.negation.inj (same hf.1 hg.1 e)
      rw [ih hf.2 hg.2 hb, show i = j from e]
    | quantified j q b | binary j op l r => nomatch same hf.1 hg.1 e
    | application j a => nomatch same hf.1 hg e
  | application i a =>
    cases g with
    | application j a' =>
      obtain rfl := Shape.application.inj (same hf hg e)
      rw [show i = j from e]
    | quantified j q b | binary j op l r | negation j b => nomatch same hf hg.1 e

theorem ReadFrom.index_lt {nodes : List Shape} {f : Formula} (h : f.ReadFrom nodes) :
    f.index < nodes.length := by
  have lt {i : Nat} {shape : Shape} (h : nodes[i]? = some shape) : i < nodes.length :=
    (List.getElem?_eq_some_iff.mp h).1
  cases f with
  | quantified i q body => exact lt h.1
  | binary i op left right => exact lt h.1
  | negation i body => exact lt h.1
  | application i a => exact lt h

theorem ReadFrom.quantifier?_eq {nodes : List Shape} {f : Formula} (h : f.ReadFrom nodes) :
    nodes[f.index]?.bind Shape.quantifier? = f.quantifier? := by
  cases f with
  | quantified i q body => rw [index, h.1]; rfl
  | binary i op left right => rw [index, h.1]; rfl
  | negation i body => rw [index, h.1]; rfl
  | application i a => rw [index, h]; rfl

end Formula

/-! ## Reading -/

namespace Draft

variable {rule : String} {scope : List String} {b b' : Bound}

/-- What the reading of a formula binds, on top of what was bound before. -/
def Binds (f : Formula) (b b' : Bound) : Prop :=
  b'.vars.Perm (f.vars ++ b.vars) ∧ b'.patterns.Perm (f.patterns ++ b.patterns) ∧
    (b.vars.Nodup → b'.vars.Nodup) ∧ (b.patterns.Nodup → b'.patterns.Nodup)

theorem bindQuantifier_ok {q : Quantifier} (h : bindQuantifier rule q scope b = .ok ⟨⟩ b') :
    q.var ∉ b.vars ∧ q.pattern ∉ b.patterns ∧ (∀ filter ∈ q.filter, filter.dep ∈ scope) ∧
      b' = ⟨q.var :: b.vars, q.pattern :: b.patterns⟩ := by
  unfold bindQuantifier at h
  rw [Routine.get_bind] at h
  by_cases hv : b.vars.contains q.var
  · rw [if_pos hv] at h
    cases h
  by_cases hp : b.patterns.contains q.pattern
  · rw [if_neg hv, if_pos hp] at h
    cases h
  rw [if_neg hv, if_neg hp] at h
  refine ⟨by simpa using hv, by simpa using hp, ?_⟩
  cases hf : q.filter with
  | none =>
    rw [hf] at h
    cases h
    exact ⟨by simp, rfl⟩
  | some filter =>
    rw [hf] at h
    by_cases hd : scope.contains filter.dep
    · simp only [hd, Bool.not_true, Bool.false_eq_true, if_false] at h
      cases h
      exact ⟨by simpa using hd, rfl⟩
    · simp only [hd, Bool.not_false, if_true] at h
      cases h

theorem checkParams_ok {a : Application} {u : PUnit}
    (h : checkParams rule a scope b = .ok u b') :
    (∀ p ∈ a.params, p.2 ∈ scope) ∧ b' = b := by
  unfold checkParams at h
  cases hf : a.params.find? fun p => !scope.contains p.2 with
  | some p =>
    rw [hf] at h
    cases h
  | none =>
    rw [hf] at h
    cases h
    rw [List.find?_eq_none] at hf
    exact ⟨fun p hp => by simpa using hf p hp, rfl⟩

/-- **Reading a node** yields a formula with the nodes of the draft, whose variables are bound where
they occur, and none of them twice. -/
theorem readNode_ok {nodes : List Shape} : ∀ {fuel index : Nat} {scope : List String}
    {b b' : Bound} {f : Formula}, readNode rule nodes fuel index scope b = .ok f b' →
    scope ⊆ b.vars → f.index = index ∧ f.ReadFrom nodes ∧ f.Scoped scope ∧ Binds f b b'
  | 0, index, scope, b, b', f, h, _ => by cases h
  | fuel + 1, index, scope, b, b', f, h, hs => by
    unfold readNode at h
    cases hn : nodes[index]? with
    | none =>
      rw [hn] at h
      cases h
    | some shape =>
      rw [hn] at h
      cases shape with
      | quantified q body =>
        obtain ⟨u, b₁, h₁, h⟩ := Routine.bind_eq_ok.mp h
        obtain ⟨g, b₂, h₂, h⟩ := Routine.bind_eq_ok.mp h
        cases h
        obtain ⟨hv, hp, hf, rfl⟩ := bindQuantifier_ok h₁
        obtain ⟨hi, hr, hg, hbv, hbp, hdv, hdp⟩ := readNode_ok h₂ (List.cons_subset_cons _ hs)
        refine ⟨rfl, ⟨by rw [hn, hi], hr⟩, ⟨fun hq => hv (hs hq), hf, hg⟩, ?_, ?_, ?_, ?_⟩
        · exact hbv.trans List.perm_middle
        · exact hbp.trans List.perm_middle
        · exact fun h => hdv (List.nodup_cons.mpr ⟨hv, h⟩)
        · exact fun h => hdp (List.nodup_cons.mpr ⟨hp, h⟩)
      | binary op left right =>
        obtain ⟨l, b₁, h₁, h⟩ := Routine.bind_eq_ok.mp h
        obtain ⟨r, b₂, h₂, h⟩ := Routine.bind_eq_ok.mp h
        cases h
        obtain ⟨hi, hr, hl, hbv, hbp, hdv, hdp⟩ := readNode_ok h₁ hs
        have hs' : scope ⊆ b₁.vars := fun v hv =>
          hbv.mem_iff.mpr (List.mem_append_right _ (hs hv))
        obtain ⟨hi', hr', hl', hbv', hbp', hdv', hdp'⟩ := readNode_ok h₂ hs'
        refine ⟨rfl, ⟨by rw [hn, hi, hi'], hr, hr'⟩, ⟨hl, hl'⟩, ?_, ?_, ?_, ?_⟩
        · rw [Formula.vars_binary]
          exact (hbv'.trans (hbv.append_left _)).trans (by
            rw [← List.append_assoc]
            exact List.perm_append_comm.append_right _)
        · rw [Formula.patterns_binary]
          exact (hbp'.trans (hbp.append_left _)).trans (by
            rw [← List.append_assoc]
            exact List.perm_append_comm.append_right _)
        · exact hdv' ∘ hdv
        · exact hdp' ∘ hdp
      | negation body =>
        obtain ⟨g, b₁, h₁, h⟩ := Routine.bind_eq_ok.mp h
        cases h
        obtain ⟨hi, hr, hg, hb⟩ := readNode_ok h₁ hs
        exact ⟨rfl, ⟨by rw [hn, hi], hr⟩, hg, hb⟩
      | application a =>
        obtain ⟨u, b₁, h₁, h⟩ := Routine.bind_eq_ok.mp h
        cases h
        obtain ⟨hp, rfl⟩ := checkParams_ok h₁
        exact ⟨rfl, hn, hp, .refl _, .refl _, id, id⟩

end Draft

/-! ## Sentences -/

namespace Sentence

/-- The formula is that of the nodes, its variables are in scope, and no variable and no pattern is
bound twice. -/
structure WellFormed (s : Sentence) : Prop where
  read : s.formula.ReadFrom s.nodes
  inScope : s.formula.Scoped []
  vars : s.formula.vars.Nodup
  patterns : s.formula.patterns.Nodup

/-- **A sentence that is built is well formed.** -/
theorem wellFormed_of_build {d : Draft} {root : Nat} {s : Sentence} (h : d.build root = .ok s) :
    s.WellFormed := by
  unfold Draft.build Draft.read at h
  split_ifs at h with hr
  · cases hf : Draft.readNode d.rule d.nodes (Draft.fuel d.nodes) root [] {} with
    | error e b' =>
      rw [Routine.value, hf] at h
      cases h
    | ok f b' =>
      rw [Routine.value, hf] at h
      cases h
      obtain ⟨-, hr, hg, hbv, hbp, hdv, hdp⟩ := Draft.readNode_ok hf (List.nil_subset _)
      rw [List.append_nil] at hbv hbp
      exact ⟨hr, hg, hbv.nodup_iff.mp (hdv .nil), hbp.nodup_iff.mp (hdp .nil)⟩

variable {s : Sentence}

/-- **A formula of the sentence is found** at its index. -/
theorem WellFormed.at?_of_mem (h : s.WellFormed) {g : Formula} (hg : g ∈ s.formula.subformulas) :
    s.formula.at? g.index = some g := by
  obtain ⟨g', hat⟩ := Formula.exists_at? hg
  obtain ⟨hg', hindex⟩ := Formula.mem_of_at? hat
  rw [hat, (h.read.of_mem hg').eq_of_index_eq (h.read.of_mem hg) hindex]

/-- A property that tells the quantifiers apart tells the places where they occur. -/
theorem nodup_map_binders {g : Quantifier → String} (h : (s.formula.quantifiers.map g).Nodup) :
    (s.binders.map fun b => g b.quantifier).Nodup := by
  rw [← s.formula.map_quantifier_binders true, List.map_map] at h
  exact h

theorem WellFormed.binderOf?_eq (h : s.WellFormed) {b : Binder} (hb : b ∈ s.binders) :
    s.binderOf? b.quantifier.pattern = some b :=
  Lists.find?_of_nodup (g := fun b : Binder => b.quantifier.pattern)
    (nodup_map_binders h.patterns) hb

theorem WellFormed.binder_of_mem (h : s.WellFormed) {q : Quantifier}
    (hq : q ∈ s.formula.quantifiers) : ∃ b, b.quantifier = q ∧ b ∈ s.binders ∧
      s.binderOf? q.pattern = some b ∧ s.patternOf? q.var = some q.pattern := by
  rw [← s.formula.map_quantifier_binders true] at hq
  obtain ⟨b, hb, rfl⟩ := List.mem_map.mp hq
  refine ⟨b, rfl, hb, h.binderOf?_eq hb, ?_⟩
  unfold patternOf?
  rw [Lists.find?_of_nodup (g := fun b : Binder => b.quantifier.var) (nodup_map_binders h.vars) hb]
  rfl

theorem mentions_iff {p : String} : s.mentions p = true ↔ p ∈ s.formula.patterns := by
  unfold mentions binderOf? binders Formula.patterns
  rw [List.find?_isSome, ← s.formula.map_quantifier_binders true, List.map_map, List.mem_map]
  simp only [decide_eq_true_eq, Function.comp]

theorem WellFormed.quantifierOf? (h : s.WellFormed) {p : String} {i : Nat} {q : Quantifier}
    {body : Formula}
    (hq : (s.quantifierOf? p).bind (Formula.at? · s.formula) = some (.quantified i q body)) :
    .quantified i q body ∈ s.formula.subformulas ∧ q.pattern = p := by
  obtain ⟨j, hj, hat⟩ := Option.bind_eq_some_iff.mp hq
  obtain ⟨b, hb, rfl⟩ := Option.map_eq_some_iff.mp hj
  have hpattern : b.quantifier.pattern = p := of_decide_eq_true (List.find?_some hb :)
  obtain ⟨body', hmem'⟩ := Formula.exists_of_mem_binders (List.mem_of_find?_eq_some hb)
  obtain ⟨hmem, rfl⟩ := Formula.mem_of_at? hat
  have hread := (h.read.of_mem hmem).1
  rw [(h.read.of_mem hmem').1] at hread
  have heq := (Shape.quantified.inj (Option.some.inj hread)).1
  exact ⟨hmem, heq ▸ hpattern⟩

theorem WellFormed.dep_ne (h : s.WellFormed) {v : String} (hv : s.filterDependsOn v = false) :
    ∀ q ∈ s.formula.quantifiers, ∀ filter ∈ q.filter, filter.dep ≠ v := by
  have hnodes : ∀ {g : Formula}, g.ReadFrom s.nodes → ∀ q ∈ g.quantifiers,
      ∃ body, Shape.quantified q body ∈ s.nodes := by
    intro g hg
    induction g with
    | quantified i q body ih =>
      rw [Formula.quantifiers, List.forall_mem_cons]
      exact ⟨⟨_, List.mem_of_getElem? hg.1⟩, ih hg.2⟩
    | binary i op left right ihl ihr =>
      intro q hq
      rcases List.mem_append.mp hq with hq | hq
      · exact ihl hg.2.1 q hq
      · exact ihr hg.2.2 q hq
    | negation i body ih => exact ih hg.2
    | application i a => exact nofun
  intro q hq filter hf e
  obtain ⟨body, hmem⟩ := hnodes h.read q hq
  refine Bool.false_ne_true (hv.symm.trans (List.any_eq_true.mpr ⟨_, hmem, ?_⟩))
  rw [Shape.quantifier?, Option.bind_some, show q.filter = some filter from hf]
  exact decide_eq_true e

end Sentence

end RuleMonitor
