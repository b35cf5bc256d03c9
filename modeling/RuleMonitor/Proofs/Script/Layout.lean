import RuleMonitor.Proofs.Script.Words

/-!
# Layouts of tokens

A script is a list of tokens, laid out with gaps between them. A gap is made of blanks and of comments,
each of which ends with its line. Only next to a parenthesis may a gap be empty, since everywhere else one
token would go on with the other one. Values can be written in two ways.

* `Script.Token`, `Script.Token.Written`: tokens, and how they are written.
* `Script.Gap`, `Script.Laid`: what stands between tokens, and tokens one after the other.
* `Script.Rendering`: tokens behind a gap.
* **`Cursor.takes_skip`**, **`Cursor.takes_word?`**, **`Cursor.takes_name`**, **`Cursor.takes_value`**, …:
  steps of a cursor past gaps and tokens.
-/

namespace RuleMonitor

open Text Routine

namespace Script

/-! ## Tokens -/

/-- What a script is made of. -/
inductive Token where
  | opening
  | closing
  /-- A word or a sign that is no name. -/
  | word (text : String)
  | name (text : String)
  | value (text : String)
deriving DecidableEq

/-- The words and signs of scripts. -/
def words : List String :=
  ["pattern", "rule", "+", "-", "~", "critical", "check", "forall", "exists", "not", "bfunc", "and", "or",
    "implies", ":filter", ":non-addable", ":non-removable", ":non-updatable", ":immutable"]

/-- A text that can be a name. -/
def IsName (text : String) : Prop :=
  text.toList.head?.any isNameStart = true ∧ text.toList.all isNameChar = true ∧ isKeyword text = false

instance (text : String) : Decidable (IsName text) :=
  inferInstanceAs (Decidable (_ ∧ _ ∧ _))

/-- How tokens are written. -/
inductive Token.Written : Token → List Char → Prop
  | opening : Written .opening ['(']
  | closing : Written .closing [')']
  | word {text : String} (h : text ∈ words) : Written (.word text) text.toList
  | name {text : String} (h : IsName text) : Written (.name text) text.toList
  /-- A value without quotes. -/
  | bare {text : String} (hne : text.toList ≠ []) (h : text.toList.all isNameChar = true) :
      Written (.value text) text.toList
  | quoted {text : String} (h : '"' ∉ text.toList) : Written (.value text) ('"' :: text.toList ++ ['"'])

/-- What stands between tokens. -/
inductive Gap : List Char → Prop
  | nil : Gap []
  | blank {c : Char} {cs : List Char} (h : isBlank c = true) (rest : Gap cs) : Gap (c :: cs)
  | comment {text cs : List Char} (h : '\n' ∉ text) (rest : Gap cs) : Gap (';' :: text ++ '\n' :: cs)

/-- A parenthesis. -/
def Token.isParenthesis : Token → Bool
  | .opening | .closing => true
  | _ => false

/-- A token can be told from those behind the gap that follows it. -/
def Token.Apart (t : Token) (gap : List Char) (ts : List Token) : Prop :=
  gap ≠ [] ∨ t.isParenthesis = true ∨ ts.head?.all Token.isParenthesis = true

instance (t : Token) (gap : List Char) (ts : List Token) : Decidable (t.Apart gap ts) :=
  inferInstanceAs (Decidable (_ ∨ _ ∨ _))

/-- Tokens, each with the gap that follows it. -/
inductive Laid : List Token → List Char → Prop
  | nil : Laid [] []
  | cons {t : Token} {ts : List Token} {written gap rest : List Char} (ht : t.Written written)
      (hgap : Gap gap) (hapart : t.Apart gap ts) (hrest : Laid ts rest) :
      Laid (t :: ts) (written ++ (gap ++ rest))

/-- Tokens behind a gap. -/
def Rendering (ts : List Token) (text : List Char) : Prop :=
  ∃ gap rest, Gap gap ∧ Laid ts rest ∧ text = gap ++ rest

/-! ## How tokens start -/

theorem inRanges_eq_false {table others : List (Nat × Nat)} {n : Nat}
    (h : table.all (fun r => others.all fun b => r.2 < b.1 || b.2 < r.1) = true)
    (hn : inRanges others n = true) : inRanges table n = false := by
  obtain ⟨b, hb, hbn⟩ := List.any_eq_true.mp hn
  refine List.any_eq_false.mpr fun r hr hrn => ?_
  have hapart := List.all_eq_true.mp (List.all_eq_true.mp h r hr) b hb
  simp only [Bool.and_eq_true, Bool.or_eq_true, decide_eq_true_eq] at hapart hbn hrn
  omega

/-- Ranges around the blanks outside ASCII, with neither letters nor digits. -/
def wideBlanks : List (Nat × Nat) :=
  [(0x80, 0xA9), (0x1680, 0x1680), (0x2000, 0x205F), (0x3000, 0x3000)]

theorem isNameChar_of_wide {c : Char} (hwide : ¬ c.toNat < 0x80) (h : inRanges wideBlanks c.toNat = true) :
    isNameChar c = false := by
  have hletter : inRanges letterRanges c.toNat = false := inRanges_eq_false (by decide +kernel) h
  have hdigit : inRanges digitRanges c.toNat = false := inRanges_eq_false (by decide +kernel) h
  have hsigns : nameSigns.all (fun d => d.toNat < 0x80) = true := by decide
  have hsign : nameSigns.contains c = false := Bool.eq_false_iff.mpr fun hc =>
    hwide (of_decide_eq_true (List.all_eq_true.mp hsigns c (List.contains_iff_mem.mp hc)))
  simp only [isNameChar, isAlphanumeric, isLetter, isDigit, hwide, hletter, hdigit, hsign, if_false, Bool.or_self]

theorem isNameChar_eq_false {c : Char} (h : isBlank c = true ∨ c ∈ [';', '(', ')', ':', '"']) :
    isNameChar c = false := by
  rcases h with h | h
  · by_cases hwide : c.toNat < 0x80
    · have hblanks : ∀ n < 0x80, isBlank (Char.ofNat n) = true → isNameChar (Char.ofNat n) = false := by
        decide +kernel
      have hn := hblanks c.toNat hwide
      rw [Char.ofNat_toNat] at hn
      exact hn h
    · refine isNameChar_of_wide hwide ?_
      simp only [isBlank, Bool.or_eq_true, Bool.and_eq_true, decide_eq_true_eq, beq_iff_eq] at h
      simp only [inRanges, wideBlanks, List.any_cons, List.any_nil, Bool.or_eq_true, Bool.and_eq_true,
        decide_eq_true_eq]
      omega
  · have hsigns : [';', '(', ')', ':', '"'].all (fun c => isNameChar c = false) = true := by decide +kernel
    exact of_decide_eq_true (List.all_eq_true.mp hsigns c h)

/-- The first characters of a token. -/
def Token.StartsWith : Token → Char → Prop
  | .opening, c => c = '('
  | .closing, c => c = ')'
  | .word text, c => text ∈ words ∧ text.toList.head? = some c
  | .name _, c => isNameStart c = true
  | .value _, c => isNameChar c = true ∨ c = '"'

theorem Token.Written.exists_cons {t : Token} {written : List Char} (h : t.Written written) :
    ∃ c cs, written = c :: cs ∧ t.StartsWith c := by
  cases h with
  | opening | closing => exact ⟨_, _, rfl, rfl⟩
  | @word text h =>
    have hne : ∀ w ∈ words, w.toList ≠ [] := by decide +kernel
    obtain ⟨c, cs, hw⟩ := List.exists_cons_of_ne_nil (hne text h)
    exact ⟨c, cs, hw, h, by rw [hw, List.head?_cons]⟩
  | @name text h =>
    obtain ⟨c, hc, hstart⟩ := (Option.any_eq_true _ _).mp h.1
    obtain ⟨cs, hcs⟩ := List.head?_eq_some_iff.mp hc
    exact ⟨c, cs, hcs, hstart⟩
  | @bare text hne hall =>
    obtain ⟨c, cs, htext⟩ := List.exists_cons_of_ne_nil hne
    rw [htext, List.all_cons, Bool.and_eq_true] at hall
    exact ⟨c, cs, htext, .inl hall.1⟩
  | quoted => exact ⟨_, _, rfl, .inr rfl⟩

theorem Token.StartsWith.solid {t : Token} {c : Char} (h : t.StartsWith c) :
    isBlank c = false ∧ c ≠ ';' := by
  have hname : ∀ {c}, isNameChar c = true → isBlank c = false ∧ c ≠ ';' := fun {c} hc => by
    refine ⟨Bool.not_eq_true _ ▸ fun hb => ?_, fun he => ?_⟩
    · exact Bool.false_ne_true ((isNameChar_eq_false (.inl hb)).symm.trans hc)
    · subst he
      revert hc
      decide
  cases t with
  | opening | closing =>
    cases h
    decide
  | word text =>
    have hwords : words.all (fun w => w.toList.head?.all fun c => isBlank c = false ∧ c ≠ ';') = true := by
      decide +kernel
    have htext := List.all_eq_true.mp hwords text h.1
    rw [h.2, Option.all_some] at htext
    exact of_decide_eq_true htext
  | name text => exact hname (Cut.isNameChar_of_isNameStart h)
  | value text =>
    rcases h with h | rfl
    · exact hname h
    · decide

theorem Laid.exists_cons {t : Token} {ts : List Token} {cs : List Char} (h : Laid (t :: ts) cs) :
    ∃ c, cs.head? = some c ∧ t.StartsWith c := by
  cases h with
  | cons ht =>
    obtain ⟨c, w, rfl, hc⟩ := ht.exists_cons
    exact ⟨c, rfl, hc⟩

theorem Laid.eq_nil {cs : List Char} (h : Laid [] cs) : cs = [] := by
  cases h
  rfl

theorem Laid.length_le {ts : List Token} {cs : List Char} (h : Laid ts cs) : ts.length ≤ cs.length := by
  induction h with
  | nil => exact Nat.le_refl _
  | cons ht _ _ _ ih =>
    obtain ⟨c, w, rfl, -⟩ := ht.exists_cons
    simp only [List.length_append, List.length_cons]
    omega

theorem Laid.rendering {ts : List Token} {cs : List Char} (h : Laid ts cs) : Rendering ts cs :=
  ⟨[], cs, .nil, h, rfl⟩

theorem Rendering.length_le {ts : List Token} {cs : List Char} (h : Rendering ts cs) :
    ts.length ≤ cs.length := by
  obtain ⟨gap, rest, -, hrest, rfl⟩ := h
  rw [List.length_append]
  exact hrest.length_le.trans (Nat.le_add_left _ _)

theorem Token.Apart.not_isNameChar {t : Token} {ts : List Token} {gap rest : List Char}
    (h : t.Apart gap ts) (ht : t.isParenthesis = false) (hgap : Gap gap) (hrest : Laid ts rest) :
    ∀ c ∈ (gap ++ rest).head?, isNameChar c = false := by
  intro c hc
  cases hgap with
  | blank hb =>
    obtain rfl := Option.some.inj hc
    exact isNameChar_eq_false (.inl hb)
  | comment =>
    obtain rfl := Option.some.inj hc
    exact isNameChar_eq_false (.inr (by decide))
  | nil =>
    rcases h with h | h | h
    · exact absurd rfl h
    · exact absurd (h.symm.trans ht) nofun
    cases ts with
    | nil =>
      rw [hrest.eq_nil] at hc
      cases hc
    | cons u us =>
      obtain ⟨d, hd, hu⟩ := hrest.exists_cons
      obtain rfl := Option.some.inj (hd.symm.trans hc)
      cases u with
      | opening | closing =>
        cases hu
        decide
      | word | name | value => cases h

theorem Laid.of_cons {t : Token} {ts : List Token} {cs : List Char} (h : Laid (t :: ts) cs) :
    ∃ written rest, t.Written written ∧ Rendering ts rest ∧
      (t.isParenthesis = false → ∀ c ∈ rest.head?, isNameChar c = false) ∧ cs = written ++ rest := by
  cases h with
  | cons hw hgap hapart hrest =>
    exact ⟨_, _, hw, ⟨_, _, hgap, hrest, rfl⟩, fun ht => hapart.not_isNameChar ht hgap hrest, rfl⟩

/-! ## Gaps -/

theorem afterBlanks_comment {text cs rest : List Char} (h : '\n' ∉ text)
    (hcs : ∀ position, (Cursor.afterBlanks false position cs).2 = rest) : ∀ position,
    (Cursor.afterBlanks true position (text ++ '\n' :: cs)).2 = rest := by
  induction text with
  | nil => exact fun _ => hcs _
  | cons c text ih =>
    intro position
    rw [List.mem_cons, not_or] at h
    rw [List.cons_append, Cursor.afterBlanks, decide_eq_true (Ne.symm h.1)]
    exact ih h.2 _

theorem Gap.afterBlanks {gap cs : List Char} (h : Gap gap)
    (hcs : ∀ c ∈ cs.head?, isBlank c = false ∧ c ≠ ';') : ∀ position,
    (Cursor.afterBlanks false position (gap ++ cs)).2 = cs := by
  induction h with
  | nil =>
    intro position
    cases cs with
    | nil => rfl
    | cons c cs =>
      obtain ⟨hb, hc⟩ := hcs c rfl
      rw [List.nil_append, Cursor.afterBlanks, hb, if_neg Bool.false_ne_true, if_neg hc]
  | blank hb _ ih =>
    intro position
    rw [List.cons_append, Cursor.afterBlanks, if_pos hb]
    exact ih _
  | @comment text gap h _ ih =>
    intro position
    have hb : isBlank ';' = false := by decide
    rw [List.append_assoc, List.cons_append, List.cons_append, Cursor.afterBlanks, hb,
      if_neg Bool.false_ne_true, if_pos rfl]
    exact afterBlanks_comment h ih _

/-! ## Words that do not come next -/

/-- Two texts differ before either of them ends. -/
def clash : List Char → List Char → Bool
  | x :: xs, y :: ys => x ≠ y || clash xs ys
  | _, _ => false

theorem after?_eq_none_of_clash {text written : List Char} (h : clash text written = true)
    (rest : List Char) : after? text (written ++ rest) = none := by
  induction text generalizing written with
  | nil => cases h
  | cons x xs ih =>
    cases written with
    | nil => cases h
    | cons y ys =>
      rw [clash, Bool.or_eq_true, decide_eq_true_eq] at h
      rw [List.cons_append, after?]
      split_ifs with hxy
      · exact ih (h.resolve_left (absurd hxy))
      · rfl

/-- A token is not what a text says. -/
def Token.differs (text : String) : Token → Bool
  | .opening => clash text.toList ['(']
  | .closing => clash text.toList [')']
  | .word w => clash text.toList w.toList
  | .name _ | .value _ => false

theorem Laid.after?_eq_none {text : String} {t : Token} {ts : List Token} {cs : List Char}
    (h : Laid (t :: ts) cs) (ht : t.differs text = true) : after? text.toList cs = none := by
  cases h with
  | cons hw =>
    cases hw with
    | opening | closing | word => exact after?_eq_none_of_clash ht _
    | name | bare | quoted => cases ht

end Script

/-! ## Steps of a cursor -/

open Script

namespace Cursor

variable {t : Token} {ts : List Token} {text : String}

/-- The text from the cursor on is of a kind. -/
def Sees (R : List Char → Prop) (c : Cursor) : Prop :=
  R c.rest

/-- **Gaps** are skipped. -/
theorem takes_skip : Attains (Sees (Rendering ts)) skip (fun _ => True) (Sees (Laid ts)) := by
  intro c hc
  obtain ⟨gap, rest, hgap, hrest, he⟩ := hc
  refine ⟨⟨⟩, c.skipped, rfl, trivial, ?_⟩
  have hsolid : ∀ x ∈ rest.head?, isBlank x = false ∧ x ≠ ';' := fun x hx => by
    cases ts with
    | nil =>
      rw [hrest.eq_nil] at hx
      cases hx
    | cons t ts =>
      obtain ⟨y, hy, hstart⟩ := hrest.exists_cons
      exact Option.some.inj (hy.symm.trans hx) ▸ hstart.solid
  have hafter := hgap.afterBlanks hsolid c.position
  rw [← he] at hafter
  change Laid ts (afterBlanks false c.position c.rest).2
  rwa [hafter]

theorem takes_tag? (ht : ∀ written, t.Written written → written = text.toList) :
    Attains (Sees (Laid (t :: ts))) (tag? text) (· = true) (Sees (Rendering ts)) := by
  intro c hc
  obtain ⟨written, rest, hw, hrest, -, he⟩ := Laid.of_cons hc
  refine ⟨true, c.advance text.toList rest, ?_, rfl, hrest⟩
  rw [Cut.tag?_eq, he, ht written hw, after?_append]

theorem misses_tag? (ht : t.differs text = true) :
    Attains (Sees (Laid (t :: ts))) (tag? text) (· = false) (Sees (Laid (t :: ts))) := by
  intro c hc
  refine ⟨false, c, ?_, rfl, hc⟩
  rw [Cut.tag?_eq, Laid.after?_eq_none hc ht]

theorem takes_tag (ht : ∀ written, t.Written written → written = text.toList) :
    Attains (Sees (Laid (t :: ts))) (tag text) (fun _ => True) (Sees (Rendering ts)) :=
  (takes_tag? ht).next (attains_pure trivial)

/-- **A word** that comes next. -/
theorem takes_word? : Attains (Sees (Laid (.word text :: ts))) (word? text) (· = true)
    (Sees (Rendering ts)) := by
  intro c hc
  obtain ⟨written, rest, hw, hrest, hstop, he⟩ := Laid.of_cons hc
  cases hw
  have hcont : continuesName rest = false := by
    cases rest with
    | nil => rfl
    | cons x xs => exact hstop rfl x rfl
  refine ⟨true, c.advance text.toList rest, ?_, rfl, hrest⟩
  rw [Cut.word?_eq, he, after?_append]
  dsimp only
  rw [hcont, if_neg Bool.false_ne_true]

theorem misses_word? (ht : t.differs text = true) :
    Attains (Sees (Laid (t :: ts))) (word? text) (· = false) (Sees (Laid (t :: ts))) := by
  intro c hc
  refine ⟨false, c, ?_, rfl, hc⟩
  rw [Cut.word?_eq, Laid.after?_eq_none hc ht]

theorem nameChars_eq {c : Cursor} {text : String} {rest : List Char} (hc : c.rest = text.toList ++ rest)
    (htext : text.toList.all isNameChar = true) (hrest : ∀ x ∈ rest.head?, isNameChar x = false) :
    nameChars c = .ok text (c.advance text.toList rest) := by
  have hall : ∀ x ∈ text.toList, isNameChar x = true := List.all_eq_true.mp htext
  have htake : rest.takeWhile isNameChar = [] := by
    cases rest with
    | nil => rfl
    | cons x xs => rw [List.takeWhile_cons, hrest x rfl, if_neg Bool.false_ne_true]
  have hdrop : rest.dropWhile isNameChar = rest := by
    cases rest with
    | nil => rfl
    | cons x xs => rw [List.dropWhile_cons, hrest x rfl, if_neg Bool.false_ne_true]
  change EStateM.Result.ok (String.ofList (c.rest.takeWhile isNameChar))
    (c.advance (c.rest.takeWhile isNameChar) (c.rest.dropWhile isNameChar)) = _
  rw [hc, List.takeWhile_append_of_pos hall, List.dropWhile_append_of_pos hall, htake, hdrop,
    List.append_nil, String.ofList_toList]

theorem takes_name? : Attains (Sees (Laid (.name text :: ts))) name? (fun found => ∃ k, found = some (k, text))
    (Sees (Rendering ts)) := by
  intro c hc
  obtain ⟨written, rest, hw, hrest, hstop, he⟩ := Laid.of_cons hc
  cases hw with
  | name hname =>
    refine ⟨some (c.position, text), c.advance text.toList rest, ?_, ⟨_, rfl⟩, hrest⟩
    have hstart : c.rest.head?.any isNameStart = true := by
      obtain ⟨x, hx, hs⟩ := (Option.any_eq_true _ _).mp hname.1
      obtain ⟨xs, hxs⟩ := List.head?_eq_some_iff.mp hx
      rw [he, hxs]
      exact hs
    rw [name?, get_bind, hstart, if_neg (by decide), bind_ok (nameChars_eq he hname.2.1 (hstop rfl)),
      hname.2.2, if_neg Bool.false_ne_true]
    rfl

theorem misses_name? (ht : t.isParenthesis = true) :
    Attains (Sees (Laid (t :: ts))) name? (· = none) (Sees (Laid (t :: ts))) := by
  intro c hc
  refine ⟨none, c, ?_, rfl, hc⟩
  have hstart : c.rest.head?.any isNameStart = false := by
    obtain ⟨x, hx, hu⟩ := Laid.exists_cons hc
    rw [hx]
    cases t with
    | opening | closing =>
      cases hu
      decide
    | word | name | value => cases ht
  rw [name?, get_bind, hstart]
  rfl

/-- **A name** that comes next. -/
theorem takes_name : Attains (Sees (Laid (.name text :: ts))) name (fun found => found.2 = text)
    (Sees (Rendering ts)) :=
  takes_name?.bind fun found hfound => by
    obtain ⟨k, rfl⟩ := hfound
    exact attains_pure rfl

/-- **A value** that comes next, in quotes or not. -/
theorem takes_value : Attains (Sees (Laid (.value text :: ts))) value (fun found => found.2 = text)
    (Sees (Rendering ts)) := by
  refine Attains.bind (A := fun found => ∃ k, found = some (k, text)) (fun c hc => ?_) fun found hfound => by
    obtain ⟨k, rfl⟩ := hfound
    exact attains_pure rfl
  obtain ⟨written, rest, hw, hrest, hstop, he⟩ := Laid.of_cons hc
  cases hw with
  | bare hne hall =>
    refine ⟨some (c.position, text), c.advance text.toList rest, ?_, ⟨_, rfl⟩, hrest⟩
    have hquote : ∀ r, c.rest ≠ '"' :: r := fun r hr => by
      obtain ⟨x, xs, hx⟩ := List.exists_cons_of_ne_nil hne
      rw [hx, List.all_cons, Bool.and_eq_true] at hall
      rw [he, hx] at hr
      obtain rfl := (List.cons.inj hr).1
      exact absurd hall.1 (by decide)
    have hempty : text.isEmpty = false := by
      rw [String.isEmpty_eq_false_iff]
      rintro rfl
      exact hne rfl
    rw [Cut.value?_bare hquote, bind_ok (nameChars_eq he hall (hstop rfl)), hempty]
    rfl
  | quoted h =>
    have hpos : ∀ x ∈ text.toList, decide (x ≠ '"') = true := fun x hx =>
      decide_eq_true fun e => h (e ▸ hx)
    have hr : c.rest = '"' :: (text.toList ++ '"' :: rest) := by
      rw [he, List.cons_append, List.cons_append, List.append_assoc, List.singleton_append]
    have hdrop : (text.toList ++ '"' :: rest).dropWhile (· ≠ '"') = '"' :: rest := by
      rw [List.dropWhile_append_of_pos hpos]
      rfl
    have htake : (text.toList ++ '"' :: rest).takeWhile (· ≠ '"') = text.toList := by
      rw [List.takeWhile_append_of_pos hpos]
      exact List.append_nil _
    have hvalue := Cut.value?_quoted hr
    rw [hdrop, htake, String.ofList_toList] at hvalue
    exact ⟨_, _, hvalue, ⟨_, rfl⟩, hrest⟩

end Cursor

end RuleMonitor
