import RuleMonitor.Proofs.Script.Words
import RuleMonitor.Script.Item

/-!
# Items of a part and of the whole

A parser of the whole text and a parser of its middle part follow each other through every construct of
the language: what one of them reads, declares or complains about, so does the other.

* `Parser.Meets`: both parsers; `Parser.Likewise`: computations that keep them together.
* `Parser.likewise_formula`: formulas.
* **`Parser.likewise_item`**: what stands between the parentheses of an item.
-/

namespace RuleMonitor

open Std (ExtTreeMap)

open Routine Cut

namespace Parser

variable {α β : Type} {t : Cut} {I : List Item} {b : Bool} {k : Site} {n m : Nat} {clean : Bool}

/-- The parser of the part stopped where the one of the whole text did, which had read the items `I`
before. -/
structure Stops (t : Cut) (I : List Item) (p q : Parser) : Prop where
  declarations : p.declarations = q.declarations
  items : p.items = I ++ q.items
  cursor : t.Reads p.cursor q.cursor

/-- The parser of the whole text, which read the items `I` before the part, is where the one of the part
is. They draft the same rule if `drafting` is true. -/
structure Meets (t : Cut) (I : List Item) (drafting : Bool) (k : Site) (p q : Parser) : Prop where
  declarations : p.declarations = q.declarations
  items : p.items = I ++ q.items
  draft : drafting = true → p.draft = q.draft
  cursor : t.Meets k p.cursor q.cursor

theorem Meets.stops {p q : Parser} (h : Meets t I b k p q) : Stops t I p q :=
  ⟨h.declarations, h.items, h.cursor.reads⟩

/-- Both parsers move on, answer alike, and meet again, unless they fail with the same failure. -/
def Likewise (t : Cut) (I : List Item) (b : Bool) (k : Site) (R : α → α → Prop) (k' : α → Site)
    (x y : Routine Parser α) : Prop :=
  Alongside (Meets t I b k) (fun a a' p q => R a a' ∧ Meets t I b (k' a) p q) (Stops t I) x y

variable {R : α → α → Prop} {k' : α → Site} {x y : Routine Parser α}

theorem Likewise.bind {R' : β → β → Prop} {k'' : β → Site} {f g : α → Routine Parser β}
    (hx : Likewise t I b k R k' x y) (hf : ∀ a a', R a a' → Likewise t I b (k' a) R' k'' (f a) (g a')) :
    Likewise t I b k R' k'' (x >>= f) (y >>= g) :=
  Alongside.bind hx fun a a' _ _ h => hf a a' h.1 h.2

theorem Likewise.next {R' : β → β → Prop} {k'' : β → Site} {f g : α → Routine Parser β}
    (hx : Likewise t I b k Eq k' x y) (hf : ∀ a, Likewise t I b (k' a) R' k'' (f a) (g a)) :
    Likewise t I b k R' k'' (x >>= f) (y >>= g) :=
  hx.bind fun a _ h => h ▸ hf a

/-- What is true at one site is true at another one. -/
structure Within (k k' : Site) : Prop where
  depth : k.depth = k'.depth
  room : k.room ≤ k'.room
  clean : k'.clean = true → k.clean = true

theorem Meets.weaken {k' : Site} {p q : Parser} (h : Meets t I b k p q) (hk : Within k k') :
    Meets t I b k' p q :=
  ⟨h.declarations, h.items, h.draft, h.cursor.weaken hk.depth hk.room hk.clean⟩

theorem Likewise.weaken {k'' : α → Site} (hx : Likewise t I b k R k' x y)
    (hk : ∀ a, Within (k' a) (k'' a)) : Likewise t I b k R k'' x y :=
  fun _ _ h => (hx h).imp (fun h => ⟨h.1, h.2.weaken (hk _)⟩) fun h => h

theorem Likewise.widen {k₀ : Site} (hx : Likewise t I b k₀ R k' x y) (hk : Within k k₀) :
    Likewise t I b k R k' x y :=
  fun _ _ h => hx (h.weaken hk)

theorem likewise_pure {a a' : α} (hR : R a a') (hk : Within k (k' a)) :
    Likewise t I b k R k' (pure a) (pure a') :=
  fun _ _ h => .ok ⟨hR, h.weaken hk⟩

theorem Likewise.get {f g : Parser → Routine Parser α}
    (h : ∀ p q, Meets t I b k p q → Likewise t I b k R k' (f p) (g q)) :
    Likewise t I b k R k' (get >>= f) (get >>= g) :=
  fun p q hm => h p q hm hm

theorem Likewise.ite {P : Prop} [Decidable P] {x' y' : Routine Parser α} (hx : Likewise t I b k R k' x y)
    (hy : Likewise t I b k R k' x' y') :
    Likewise t I b k R k' (if P then x else x') (if P then y else y') := by
  split_ifs
  · exact hx
  · exact hy

theorem likewise_read {x y : Routine Cursor α} (hx : t.Moves k R k' x y) :
    Likewise t I b k R k' (read x) (read y) := by
  intro p q h
  refine (hx h.cursor).onPart ?_ ?_
  · exact fun hm => ⟨hm.1, h.declarations, h.items, h.draft, hm.2⟩
  · exact fun hr => ⟨h.declarations, h.items, hr⟩

/-! ## Failures -/

section Failures

variable {whole part : Nat} (ht : t.Fair) (h : t.Place whole part) (message : String)

include ht h

theorem likewise_failAt : Likewise t I b k R k' (failAt whole message) (failAt part message) :=
  likewise_read (moves_failAt ht h message)

theorem Likewise.check {P : Prop} [Decidable P] {f g : PUnit → Routine Parser α}
    (hf : Likewise t I b k R k' (f ⟨⟩) (g ⟨⟩)) :
    Likewise t I b k R k' (if P then failAt whole message >>= f else f ⟨⟩)
      (if P then failAt part message >>= g else g ⟨⟩) :=
  Likewise.ite ((likewise_failAt ht h message).next fun _ => hf) hf

theorem alongside_failWithin {post : α → α → Parser → Parser → Prop} (e : Failure) :
    Alongside (Stops t I) post (Stops t I) (failWithin whole message e) (failWithin part message e) := by
  intro p q hs
  cases e with
  | crash c => exact .error hs
  | error e =>
    have herror := errorAt_eq ht hs.cursor.whole hs.cursor.lines hs.cursor.part hs.cursor.linesPart h message
    rw [failWithin, failWithin, get_bind, get_bind, herror]
    cases q.cursor.errorAt part message <;> exact .error hs

end Failures

theorem Likewise.attempt {R' : β → β → Prop} {k'' : β → Site} {f g : Except Failure α → Routine Parser β}
    (hx : Likewise t I b k Eq k' x y)
    (hok : ∀ a, Likewise t I b (k' a) R' k'' (f (.ok a)) (g (.ok a)))
    (herror : ∀ e, Alongside (Stops t I) (fun a a' p q => R' a a' ∧ Meets t I b (k'' a) p q) (Stops t I)
      (f (.error e)) (g (.error e))) :
    Likewise t I b k R' k'' (Routine.attempt x >>= f) (Routine.attempt y >>= g) := by
  refine Alongside.bind (M := fun o o' p q => (∃ a, o = .ok a ∧ o' = .ok a ∧ Meets t I b (k' a) p q) ∨
    ∃ e, o = .error e ∧ o' = .error e ∧ Stops t I p q) (Alongside.attempt hx ?_ ?_) ?_
  · rintro a _ p q ⟨rfl, h⟩
    exact .inl ⟨a, rfl, rfl, h⟩
  · exact fun h => .inr ⟨_, rfl, rfl, h⟩
  · rintro o o' p q (⟨a, rfl, rfl, h⟩ | ⟨e, rfl, rfl, h⟩)
    · exact hok a h
    · exact herror e h

/-! ## Places and fuel -/

theorem likewise_position (hk : k.clean = true) :
    Likewise t I b k t.Place (fun _ => k) position position :=
  Likewise.get fun _ _ h => likewise_pure (h.cursor.place hk) ⟨rfl, Nat.le_refl _, id⟩

theorem Likewise.fuel {f g : Nat → Routine Parser α}
    (h : ∀ m' ≤ m, Likewise t I b ⟨n, m', clean⟩ R k' (f (m' + t.after.length)) (g m')) :
    Likewise t I b ⟨n, m, clean⟩ R k' (fuel >>= f) (fuel >>= g) := by
  intro p q hm
  have hroom : q.cursor.rest.length < m := hm.cursor.room
  have hlen : p.cursor.rest.length + 1 = q.cursor.rest.length + 1 + t.after.length := by
    rw [hm.cursor.rest, List.length_append]
    omega
  change Agree _ _ (f (p.cursor.rest.length + 1) p) (g (q.cursor.rest.length + 1) q)
  rw [hlen]
  exact h _ hroom ⟨hm.declarations, hm.items, hm.draft, hm.cursor.reads, hm.cursor.rest, hm.cursor.position,
    hm.cursor.reached, Nat.lt_succ_self _, hm.cursor.clean⟩

theorem likewise_zero : Likewise t I b ⟨n, 0, clean⟩ R k' x y :=
  fun _ _ h => absurd h.cursor.room (Nat.not_lt_zero _)

/-! ## Parts of items -/

section Parts

variable (ht : t.Fair)

include ht

theorem likewise_skip : Likewise t I b ⟨n + 1, m, clean⟩ Eq (fun _ => ⟨n + 1, m, true⟩) skip skip :=
  likewise_read (moves_skip ht)

theorem likewise_close : Likewise t I b ⟨n + 1, m, clean⟩ Eq (fun _ => ⟨n, m, false⟩) close close :=
  (likewise_skip ht).next fun _ =>
    (likewise_read (moves_tag ht rfl (Nesting.step_close n))).weaken fun _ => ⟨rfl, Nat.sub_le _ _, id⟩

theorem likewise_nextName :
    Likewise t I b ⟨n + 1, m, clean⟩ t.Found (fun _ => ⟨n + 1, m, false⟩) nextName nextName :=
  (likewise_skip ht).next fun _ =>
    (likewise_read (moves_name ht)).weaken fun _ => ⟨rfl, Nat.sub_le _ _, id⟩

theorem likewise_nextValue :
    Likewise t I b ⟨n + 1, m, clean⟩ t.Found (fun _ => ⟨n + 1, m, false⟩) nextValue nextValue :=
  (likewise_skip ht).next fun _ =>
    (likewise_read (moves_value ht)).weaken fun _ => ⟨rfl, Nat.sub_le _ _, id⟩

theorem likewise_pattern :
    Likewise t I b ⟨n + 1, m, clean⟩ Eq (fun _ => ⟨n + 1, m, false⟩) pattern pattern := by
  refine (likewise_nextName ht).bind ?_
  rintro ⟨whole, name⟩ ⟨part, _⟩ ⟨hplace, rfl⟩
  refine Likewise.get fun p q h => ?_
  dsimp only
  rw [h.declarations]
  exact Likewise.check ht hplace _ (likewise_pure rfl ⟨rfl, Nat.le_refl _, id⟩)

theorem likewise_live (pattern : Option String) :
    Likewise t I b ⟨n + 1, m, true⟩ Eq (fun _ => ⟨n + 1, m - 1, false⟩) (live pattern) (live pattern) := by
  refine (likewise_read (moves_value ht)).bind ?_
  rintro ⟨whole, name⟩ ⟨part, _⟩ ⟨hplace, rfl⟩
  refine Likewise.get fun p q h => ?_
  dsimp only
  rw [h.declarations]
  cases q.declarations.roster.byName? name with
  | none => exact likewise_failAt ht hplace _
  | some id =>
    cases pattern with
    | none => exact likewise_pure rfl ⟨rfl, Nat.le_refl _, fun h => h⟩
    | some pattern => exact Likewise.check ht hplace _ (likewise_pure rfl ⟨rfl, Nat.le_refl _, fun h => h⟩)

omit ht in
theorem likewise_opening {f g : Routine Parser α}
    (hopen : Likewise t I b ⟨n + 2, m - 1, false⟩ R k' f g) {a : α} (ha : R a a)
    (hk : Within ⟨n + 1, m, true⟩ (k' a)) :
    Likewise t I b ⟨n + 1, m, true⟩ R k'
      (do
        if !(← read (Cursor.tag? "(")) then return a
        f)
      (do
        if !(← read (Cursor.tag? "(")) then return a
        g) := by
  refine (likewise_read (alongside_tag? rfl (Nesting.step_open (n + 1)))).next fun found => ?_
  cases found with
  | true => exact hopen
  | false => exact likewise_pure ha hk

theorem likewise_attributesFrom (l m : Nat) : ∀ attributes, Likewise t I b ⟨n + 1, m, true⟩ Eq
    (fun _ => ⟨n + 1, m, true⟩) (attributesFrom (m + l) attributes) (attributesFrom m attributes) := by
  induction m with
  | zero => exact fun _ => likewise_zero
  | succ m ih =>
    intro attributes
    rw [Nat.succ_add]
    refine likewise_opening ?_ rfl ⟨rfl, Nat.le_refl _, id⟩
    refine (likewise_nextName ht).bind ?_
    rintro ⟨whole, name⟩ ⟨part, _⟩ ⟨hplace, rfl⟩
    refine (likewise_nextValue ht).bind ?_
    rintro ⟨_, value⟩ ⟨_, _⟩ ⟨-, rfl⟩
    refine (likewise_close ht).next fun _ => (likewise_skip ht).next fun _ => ?_
    refine Likewise.check ht hplace _ (Likewise.check ht hplace _ ?_)
    exact (ih _).weaken fun _ => ⟨rfl, Nat.le_succ _, id⟩

theorem likewise_attributes :
    Likewise t I b ⟨n + 1, m, clean⟩ Eq (fun _ => ⟨n + 1, m, true⟩) attributes attributes :=
  (likewise_skip ht).next fun _ => Likewise.fuel fun m' hm =>
    (likewise_attributesFrom ht _ m' ∅).weaken fun _ => ⟨rfl, hm, id⟩

theorem likewise_namesFrom (l m : Nat) : ∀ names, Likewise t I b ⟨n + 1, m, true⟩ Eq
    (fun _ => ⟨n + 1, m, false⟩) (namesFrom (m + l) names) (namesFrom m names) := by
  induction m with
  | zero => exact fun _ => likewise_zero
  | succ m ih =>
    intro names
    rw [Nat.succ_add]
    refine (likewise_read (moves_name? ht)).bind fun found found' hfound => ?_
    cases hfound with
    | none => exact likewise_pure rfl ⟨rfl, Nat.le_refl _, nofun⟩
    | @some found found' hname =>
      obtain ⟨_, name⟩ := found
      obtain ⟨_, name'⟩ := found'
      obtain rfl : name = name' := hname.2
      exact (likewise_skip ht).next fun _ => (ih _).weaken fun _ => ⟨rfl, Nat.le_succ _, id⟩

/-! ## Formulas -/

theorem likewise_paramsFrom (l m : Nat) : ∀ params, Likewise t I b ⟨n + 1, m, true⟩ Eq
    (fun _ => ⟨n + 1, m, false⟩) (paramsFrom (m + l) params) (paramsFrom m params) := by
  induction m with
  | zero => exact fun _ => likewise_zero
  | succ m ih =>
    intro params
    rw [Nat.succ_add]
    refine likewise_opening ?_ rfl ⟨rfl, Nat.le_refl _, nofun⟩
    refine (likewise_nextValue ht).bind ?_
    rintro ⟨_, position⟩ ⟨_, _⟩ ⟨-, rfl⟩
    refine (likewise_nextName ht).bind ?_
    rintro ⟨_, var⟩ ⟨_, _⟩ ⟨-, rfl⟩
    exact (likewise_close ht).next fun _ => (likewise_skip ht).next fun _ =>
      (ih _).weaken fun _ => ⟨rfl, Nat.le_succ _, id⟩

omit ht in
theorem likewise_onDraft (x : Routine Draft α) :
    Likewise t I true k Eq (fun _ => k) (onDraft x) (onDraft x) := by
  intro p q h
  unfold onDraft
  have hdraft : p.draft = q.draft := h.draft rfl
  have hsame : Agree (fun a a' d d' => a = a' ∧ d = d') (fun _ _ => True) (x p.draft) (x q.draft) := by
    rw [hdraft]
    cases x q.draft with
    | ok a d => exact .ok ⟨rfl, rfl⟩
    | error e d => exact .error trivial
  refine hsame.onPart ?_ fun _ => ⟨h.declarations, h.items, h.cursor.reads⟩
  exact fun hd => ⟨hd.1, h.declarations, h.items, fun _ => hd.2, h.cursor⟩

theorem likewise_application :
    Likewise t I true ⟨n + 1, m, clean⟩ Eq (fun _ => ⟨n + 1, m, false⟩) application application := by
  refine (likewise_nextName ht).bind ?_
  rintro ⟨_, name⟩ ⟨_, _⟩ ⟨-, rfl⟩
  exact (likewise_skip ht).next fun _ => Likewise.fuel fun m' hm =>
    (likewise_paramsFrom ht _ m' []).next fun _ =>
      (likewise_onDraft _).weaken fun _ => ⟨rfl, hm, id⟩

theorem likewise_word? (text : String) (hw : IsWord text) {x y x' y' : Routine Parser α}
    (hx : Likewise t I b ⟨n + 1, m - 1, false⟩ R k' x x') (hy : Likewise t I b ⟨n + 1, m, true⟩ R k' y y') :
    Likewise t I b ⟨n + 1, m, true⟩ R k' (do if ← read (Cursor.word? text) then x else y)
      (do if ← read (Cursor.word? text) then x' else y') := by
  refine (likewise_read (moves_word? ht hw)).next fun found => ?_
  cases found with
  | true => exact hx
  | false => exact hy

theorem likewise_keyword (text : String) (hw : IsWord text) {x y x' y' : Routine Parser α}
    (hx : Likewise t I b ⟨n + 1, m, false⟩ R k' x x') (hy : Likewise t I b ⟨n + 1, m, true⟩ R k' y y') :
    Likewise t I b ⟨n + 1, m, true⟩ R k' (do if ← read (Cursor.word? text) then x else y)
      (do if ← read (Cursor.word? text) then x' else y') :=
  likewise_word? ht text hw (hx.widen ⟨rfl, Nat.sub_le _ _, id⟩) hy

theorem likewise_repairMark {marks : List (String × List Repair)} (hw : ∀ mark ∈ marks, IsWord mark.1) :
    Likewise t I b ⟨n + 1, m, true⟩ Eq (fun found => Site.past ⟨n + 1, m, true⟩ found.isSome)
      (repairMark marks) (repairMark marks) := by
  induction marks with
  | nil => exact likewise_pure rfl ⟨rfl, Nat.le_refl _, id⟩
  | cons mark rest ih =>
    rw [List.forall_mem_cons] at hw
    exact likewise_word? ht _ hw.1 (likewise_pure rfl ⟨rfl, Nat.le_refl _, id⟩) (ih hw.2)

/-- The same marks, with places in the whole text and in the part. -/
structure Marks.Alike (t : Cut) (marks marks' : Marks) : Prop where
  filter : Option.Rel t.Found marks.filter marks'.filter
  disabled : marks.disabled = marks'.disabled

theorem likewise_marksFrom (l m : Nat) : ∀ {marks marks' : Marks}, marks.Alike t marks' →
    Likewise t I b ⟨n + 1, m, clean⟩ (Marks.Alike t) (fun _ => ⟨n + 1, m, true⟩)
      (marksFrom (m + l) marks) (marksFrom m marks') := by
  induction m generalizing clean with
  | zero => exact fun _ => likewise_zero
  | succ m ih =>
    intro marks marks' halike
    rw [Nat.succ_add]
    refine (likewise_skip ht).next fun _ => (likewise_position rfl).bind fun whole part hplace => ?_
    refine likewise_word? ht ":filter" (by decide) ?_ ?_
    · refine (likewise_nextName ht).bind ?_
      rintro ⟨_, name⟩ ⟨_, _⟩ ⟨-, rfl⟩
      refine (likewise_nextName ht).bind ?_
      rintro ⟨_, dep⟩ ⟨_, _⟩ ⟨-, rfl⟩
      have hmarks : Marks.Alike t { marks with filter := some (whole, name, dep) }
          { marks' with filter := some (part, name, dep) } := ⟨.some ⟨hplace, rfl⟩, halike.disabled⟩
      exact (ih hmarks).weaken fun _ => ⟨rfl, Nat.le_succ _, id⟩
    · refine (likewise_repairMark ht (by decide)).next fun found => ?_
      cases found with
      | some repairs =>
        have hmarks : Marks.Alike t { marks with disabled := marks.disabled ++ repairs }
            { marks' with disabled := marks'.disabled ++ repairs } :=
          ⟨halike.filter, congrArg (· ++ repairs) halike.disabled⟩
        exact (ih hmarks).weaken fun _ => ⟨rfl, Nat.le_succ _, id⟩
      | none =>
        refine Likewise.get fun p q h => ?_
        have hpeek : p.cursor.peek? = q.cursor.peek? := h.cursor.head? rfl
        rw [hpeek]
        exact Likewise.check ht hplace _ (likewise_pure halike ⟨rfl, Nat.le_refl _, id⟩)

theorem likewise_mark (node : Nat) (pattern : String) {marks marks' : Marks} (h : marks.Alike t marks') :
    Likewise t I true k Eq (fun _ => k) (mark node pattern marks) (mark node pattern marks') := by
  obtain ⟨filter, disabled⟩ := marks
  obtain ⟨filter', disabled'⟩ := marks'
  obtain ⟨hfilter, hdisabled⟩ := h
  obtain rfl : disabled = disabled' := hdisabled
  have hdisable : ∀ disabled : List Repair, Likewise t I true k Eq (fun _ => k)
      (disabled.forM fun repair => onDraft (Draft.disable node repair pattern))
      (disabled.forM fun repair => onDraft (Draft.disable node repair pattern)) := by
    intro disabled
    induction disabled with
    | nil => exact likewise_pure rfl ⟨rfl, Nat.le_refl _, id⟩
    | cons repair rest ih => exact (likewise_onDraft _).next fun _ => ih
  cases hfilter with
  | none => exact hdisable _
  | @some f f' hf =>
    obtain ⟨whole, name, dep⟩ := f
    obtain ⟨part, name', dep'⟩ := f'
    obtain ⟨hplace, hnames⟩ := hf
    obtain ⟨rfl, rfl⟩ := Prod.mk.inj hnames
    refine Likewise.attempt (likewise_onDraft _) (fun _ => hdisable _) fun e => ?_
    exact (alongside_failWithin ht hplace "in this filter" e).bind fun _ _ => hdisable _

theorem likewise_quantifier (kind : QuantifierKind) {body body' : Routine Parser Nat}
    (h : Likewise t I true ⟨n + 1, m, true⟩ Eq (fun _ => ⟨n + 1, m, false⟩) body body') :
    Likewise t I true ⟨n + 1, m, clean⟩ Eq (fun _ => ⟨n + 1, m, false⟩) (quantifier kind body)
      (quantifier kind body') := by
  refine (likewise_nextName ht).bind ?_
  rintro ⟨_, var⟩ ⟨_, _⟩ ⟨-, rfl⟩
  refine (likewise_pattern ht).next fun pattern => Likewise.fuel fun m' hm => ?_
  have hmarks : Likewise t I true ⟨n + 1, m', false⟩ (Marks.Alike t) (fun _ => ⟨n + 1, m, true⟩)
      (marksFrom (m' + t.after.length) {}) (marksFrom m' {}) :=
    (likewise_marksFrom ht _ m' ⟨.none, rfl⟩).weaken fun _ => ⟨rfl, hm, id⟩
  exact hmarks.bind fun marks marks' halike => h.next fun sub =>
    (likewise_onDraft _).next fun node => (likewise_mark ht node pattern halike).next fun _ =>
      likewise_pure rfl ⟨rfl, Nat.le_refl _, id⟩

theorem likewise_binary (op : Connective) {operand operand' : Routine Parser Nat}
    (h : Likewise t I true ⟨n + 1, m, true⟩ Eq (fun _ => ⟨n + 1, m, false⟩) operand operand') :
    Likewise t I true ⟨n + 1, m, clean⟩ Eq (fun _ => ⟨n + 1, m, false⟩) (binary op operand)
      (binary op operand') :=
  (likewise_skip ht).next fun _ => h.next fun _ => (likewise_skip ht).next fun _ => h.next fun _ =>
    likewise_onDraft _

theorem likewise_negation {operand operand' : Routine Parser Nat}
    (h : Likewise t I true ⟨n + 1, m, true⟩ Eq (fun _ => ⟨n + 1, m, false⟩) operand operand') :
    Likewise t I true ⟨n + 1, m, clean⟩ Eq (fun _ => ⟨n + 1, m, false⟩) (negation operand)
      (negation operand') :=
  (likewise_skip ht).next fun _ => h.next fun _ => likewise_onDraft _

theorem likewise_connective {formula formula' : Routine Parser Nat}
    (h : Likewise t I true ⟨n + 1, m, true⟩ Eq (fun _ => ⟨n + 1, m, false⟩) formula formula') :
    Likewise t I true ⟨n + 1, m, true⟩ Eq (fun _ => ⟨n + 1, m, false⟩) (connective formula)
      (connective formula') :=
  (likewise_position rfl).bind fun _ _ hplace =>
    likewise_keyword ht "forall" (by decide) (likewise_quantifier ht _ h) <|
    likewise_keyword ht "exists" (by decide) (likewise_quantifier ht _ h) <|
    likewise_keyword ht "not" (by decide) (likewise_negation ht h) <|
    likewise_keyword ht "bfunc" (by decide) (likewise_application ht) <|
    likewise_keyword ht "and" (by decide) (likewise_binary ht _ h) <|
    likewise_keyword ht "or" (by decide) (likewise_binary ht _ h) <|
    likewise_keyword ht "implies" (by decide) (likewise_binary ht _ h) <|
    likewise_failAt ht hplace _

theorem likewise_formula (l m : Nat) : Likewise t I true ⟨n + 1, m, true⟩ Eq (fun _ => ⟨n + 1, m, false⟩)
    (formula (m + l)) (formula m) := by
  induction m generalizing n with
  | zero => exact likewise_zero
  | succ m ih =>
    rw [Nat.succ_add]
    refine (likewise_read (moves_tag ht rfl (Nesting.step_open (n + 1)))).next fun _ =>
      (likewise_skip ht).next fun _ => (likewise_connective ht ih).next fun node =>
        (likewise_close ht).next fun _ => likewise_pure rfl ⟨rfl, Nat.le_succ _, id⟩

/-! ## Items -/

theorem likewise_patternDeclaration : Likewise t I b ⟨n + 1, m, clean⟩ Eq (fun _ => ⟨n + 1, m, false⟩)
    patternDeclaration patternDeclaration := by
  refine (likewise_nextName ht).bind ?_
  rintro ⟨whole, name⟩ ⟨part, _⟩ ⟨hplace, rfl⟩
  refine Likewise.get fun p q h => ?_
  dsimp only
  rw [h.declarations]
  refine Likewise.check ht hplace _ ((likewise_skip ht).next fun _ => Likewise.fuel fun m' hm =>
    (likewise_namesFrom ht _ m' []).next fun attributes => ?_)
  intro p q h
  have hmeets : Meets t I b ⟨n + 1, m, false⟩ p q := h.weaken ⟨rfl, hm, id⟩
  exact .ok ⟨rfl, congrArg (fun d : Declarations => { d with patterns := d.patterns.insert name attributes })
    h.declarations, h.items, h.draft, hmeets.cursor⟩

omit ht in
theorem Likewise.redraft {draft : Draft} {R : α → α → Prop} {x y : Routine Parser α}
    (h : Likewise t I true ⟨n, m, true⟩ R (fun _ => ⟨n, m, false⟩) x y) :
    Likewise t I b ⟨n, m, true⟩ R (fun _ => ⟨n, m, false⟩)
      (do modify fun p => { p with draft }; x) (do modify fun p => { p with draft }; y) := by
  intro p q hm
  have hdrafted : Meets t I true ⟨n, m, true⟩ { p with draft } { q with draft } :=
    ⟨hm.declarations, hm.items, fun _ => rfl, hm.cursor⟩
  refine (h hdrafted).imp ?_ id
  exact fun h => ⟨h.1, h.2.declarations, h.2.items, fun _ => h.2.draft rfl, h.2.cursor⟩

theorem likewise_rule {whole part : Nat} (hplace : t.Place whole part) :
    Likewise t I b ⟨n + 1, m, clean⟩ Eq (fun _ => ⟨n + 1, m, false⟩) (rule whole) (rule part) := by
  refine (likewise_nextName ht).bind ?_
  rintro ⟨_, name⟩ ⟨_, _⟩ ⟨-, rfl⟩
  refine (likewise_skip ht).next fun _ => ?_
  -- The rule is drafted from its beginning.
  refine Likewise.redraft (Likewise.fuel fun m' hm => (likewise_formula ht _ m').next fun root =>
    Likewise.get fun p q h => ?_)
  rw [h.draft rfl]
  cases q.draft.build root with
  | ok sentence => exact likewise_pure rfl ⟨rfl, hm, id⟩
  | error e => exact fun p q h => alongside_failWithin ht hplace _ e h.stops

theorem likewise_changeRoster {whole part : Nat} (hplace : t.Place whole part) (x : Routine Roster Change) :
    Likewise t I b k Eq (fun _ => k) (changeRoster whole x) (changeRoster part x) := by
  have hx : Likewise t I b k Eq (fun _ => k) (onRoster x) (onRoster x) := by
    intro p q h
    unfold onRoster
    have hsame : Agree (fun a a' r r' => a = a' ∧ r = r') Eq (x p.declarations.roster)
        (x q.declarations.roster) := by
      rw [h.declarations]
      cases x q.declarations.roster with
      | ok a r => exact .ok ⟨rfl, rfl⟩
      | error e r => exact .error rfl
    have hroster : ∀ r : Roster, ({ p.declarations with roster := r } : Declarations) =
        { q.declarations with roster := r } := fun r => by rw [h.declarations]
    refine Agree.onPart (s := p) (t := q) hsame ?_ ?_
    · rintro a _ r _ ⟨rfl, rfl⟩
      exact ⟨rfl, hroster r, h.items, h.draft, h.cursor⟩
    · rintro r _ rfl
      exact ⟨hroster r, h.items, h.cursor.reads⟩
  refine Likewise.attempt hx (fun change => ?_) fun e => ?_
  · exact likewise_pure rfl ⟨rfl, Nat.le_refl _, id⟩
  · exact alongside_failWithin ht hplace _ e

theorem likewise_addition {whole part : Nat} (hplace : t.Place whole part) :
    Likewise t I b ⟨n + 1, m, clean⟩ Eq (fun _ => ⟨n + 1, m, false⟩) (addition whole) (addition part) := by
  refine (likewise_pattern ht).next fun pattern => (likewise_nextValue ht).bind ?_
  rintro ⟨found, name⟩ ⟨found', _⟩ ⟨hfound, rfl⟩
  refine Likewise.get fun p q h => ?_
  dsimp only
  rw [h.declarations]
  exact Likewise.check ht hfound _ ((likewise_attributes ht).next fun _ =>
    (likewise_changeRoster ht hplace _).weaken fun _ => ⟨rfl, Nat.le_refl _, nofun⟩)

theorem likewise_deletion {whole part : Nat} (hplace : t.Place whole part) :
    Likewise t I b ⟨n + 1, m, clean⟩ Eq (fun _ => ⟨n + 1, m, false⟩) (deletion whole) (deletion part) := by
  refine (likewise_pattern ht).next fun pattern => (likewise_skip ht).next fun _ =>
    (likewise_live ht _).next fun id => ?_
  exact (likewise_changeRoster ht hplace _).weaken fun _ => ⟨rfl, Nat.sub_le _ _, fun h => h⟩

theorem likewise_update {whole part : Nat} (hplace : t.Place whole part) :
    Likewise t I b ⟨n + 1, m, clean⟩ Eq (fun _ => ⟨n + 1, m, false⟩) (update whole) (update part) := by
  refine (likewise_pattern ht).next fun pattern => (likewise_skip ht).next fun _ =>
    (likewise_live ht _).next fun id => (likewise_attributes ht).next fun attributes => ?_
  have hchange : Likewise t I b ⟨n + 1, m - 1, true⟩ Eq (fun _ => ⟨n + 1, m, false⟩)
      (changeRoster whole (Roster.update id attributes)) (changeRoster part (Roster.update id attributes)) :=
    (likewise_changeRoster ht hplace _).weaken fun _ => ⟨rfl, Nat.sub_le _ _, nofun⟩
  exact Likewise.ite ((likewise_position rfl).bind fun _ _ hat =>
    (likewise_failAt ht hat _).next fun _ => hchange) hchange

theorem likewise_criticalFrom (l m : Nat) : ∀ ids, Likewise t I b ⟨n + 1, m, true⟩ Eq
    (fun _ => ⟨n + 1, m, false⟩) (criticalFrom (m + l) ids) (criticalFrom m ids) := by
  induction m with
  | zero => exact fun _ => likewise_zero
  | succ m ih =>
    intro ids
    rw [Nat.succ_add]
    refine Likewise.get fun p q h => ?_
    have hpeek : p.cursor.peek? = q.cursor.peek? := h.cursor.head? rfl
    rw [hpeek]
    cases q.cursor.peek? with
    | none => exact likewise_pure rfl ⟨rfl, Nat.le_refl _, nofun⟩
    | some c =>
      refine Likewise.ite (likewise_pure rfl ⟨rfl, Nat.le_refl _, nofun⟩) ?_
      exact (likewise_live ht _).next fun id => (likewise_skip ht).next fun _ =>
        (ih _).weaken fun _ => ⟨rfl, Nat.le_succ _, fun h => h⟩

/-- **What stands between the parentheses of an item.** -/
theorem likewise_item :
    Likewise t I b ⟨n + 1, m, true⟩ Eq (fun _ => ⟨n + 1, m, false⟩) item item := by
  refine (likewise_position rfl).bind fun whole part hplace => ?_
  have hchange : ∀ {x y : Routine Parser Change},
      Likewise t I b ⟨n + 1, m, false⟩ Eq (fun _ => ⟨n + 1, m, false⟩) x y →
      Likewise t I b ⟨n + 1, m, false⟩ Eq (fun _ => ⟨n + 1, m, false⟩)
        (do return some (Item.change (← x))) (do return some (Item.change (← y))) := fun hx =>
    hx.next fun _ => likewise_pure rfl ⟨rfl, Nat.le_refl _, id⟩
  exact likewise_keyword ht "pattern" (by decide)
      ((likewise_patternDeclaration ht).next fun _ => likewise_pure rfl ⟨rfl, Nat.le_refl _, id⟩) <|
    likewise_keyword ht "rule" (by decide)
      ((likewise_rule ht hplace).next fun _ => likewise_pure rfl ⟨rfl, Nat.le_refl _, id⟩) <|
    likewise_keyword ht "+" (by decide) (hchange (likewise_addition ht hplace)) <|
    likewise_keyword ht "-" (by decide) (hchange (likewise_deletion ht hplace)) <|
    likewise_keyword ht "~" (by decide) (hchange (likewise_update ht hplace)) <|
    likewise_keyword ht "critical" (by decide)
      ((likewise_skip ht).next fun _ => Likewise.fuel fun m' hm =>
        (likewise_criticalFrom ht _ m' []).next fun _ => likewise_pure rfl ⟨rfl, hm, id⟩) <|
    likewise_keyword ht "check" (by decide) (likewise_pure rfl ⟨rfl, Nat.le_refl _, id⟩) <|
    likewise_failAt ht hplace _

theorem likewise_openItem :
    Likewise t I b ⟨0, m, true⟩ Eq (fun _ => ⟨1, m - 1, false⟩) openItem openItem := by
  -- Where no parenthesis comes next, the parsers still meet.
  have htag : Alongside (Meets t I b ⟨0, m, true⟩) (fun _ _ => Meets t I b ⟨1, m - 1, false⟩)
      (Meets t I b ⟨0, m, true⟩) (read (Cursor.tag "(")) (read (Cursor.tag "(")) := by
    intro p q h
    refine Agree.onPart (s := p) (t := q) (alongside_tag ht rfl (Nesting.step_open 0) h.cursor) ?_ ?_
    · exact fun hm => ⟨h.declarations, h.items, h.draft, hm.2⟩
    · exact fun hm => ⟨h.declarations, h.items, h.draft, hm⟩
  refine Alongside.bind (M := fun o o' p q =>
    (o = .ok ⟨⟩ ∧ o' = .ok ⟨⟩ ∧ Meets t I b ⟨1, m - 1, false⟩ p q) ∨
      ∃ e, o = .error e ∧ o' = .error e ∧ Meets t I b ⟨0, m, true⟩ p q) (htag.attempt ?_ ?_) ?_
  · exact fun h => .inl ⟨rfl, rfl, h⟩
  · exact fun h => .inr ⟨_, rfl, rfl, h⟩
  · rintro o o' p q (⟨rfl, rfl, h⟩ | ⟨e, rfl, rfl, h⟩)
    · exact .ok ⟨rfl, h⟩
    · exact alongside_failWithin ht (h.cursor.place rfl) _ e h.stops

end Parts

end Parser

end RuleMonitor
