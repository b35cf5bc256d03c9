import Mathlib.Data.List.TakeWhile
import RuleMonitor.Proofs.Script.Alongside

/-!
# Words of a part and of the whole

Where both cursors meet, they read the same words. Between parentheses, no word goes past the end of the
part, since it would have to go past a closing parenthesis before.

* `Cut.Moves`: steps of both cursors that keep them together.
* `Cut.moves_skip`, `Cut.moves_tag`, `Cut.moves_word?`: blanks, signs and keywords.
* `Cut.moves_name`, `Cut.moves_value`: names and values.
-/

namespace RuleMonitor

open Script Text Routine

namespace Cut

variable {α β : Type} {t : Cut} {c d : Cursor} {n m : Nat}

/-- Both cursors move on, answer alike, and meet again, unless both steps fail with the same failure. -/
def Moves (t : Cut) (k : Site) (R : α → α → Prop) (k' : α → Site) (x y : Routine Cursor α) : Prop :=
  Alongside (t.Meets k) (fun a b c d => R a b ∧ t.Meets (k' a) c d) t.Reads x y

theorem Meets.head? {k : Site} (h : t.Meets k c d) (hk : k.clean = true) : c.rest.head? = d.rest.head? := by
  rw [h.rest]
  rcases h.goes hk with hnil | hne
  · rw [hnil, List.append_nil]
  · obtain ⟨y, ys, hd⟩ := List.exists_cons_of_ne_nil hne
    rw [hd]
    rfl

/-! ## Failures -/

section Failures

variable {R : α → α → Prop} {k : Site} {k' : α → Site} {whole part : Nat}

theorem Reads.failAt (hr : t.Reads c d) (ht : t.Fair) {post : α → α → Cursor → Cursor → Prop}
    {fail : Cursor → Cursor → Prop} (hfail : fail c d) (h : t.Place whole part) (message : String) :
    Agree post fail (Cursor.failAt whole message c) (Cursor.failAt part message d) := by
  change Agree _ _ (.error (c.errorAt whole message) c) (.error (d.errorAt part message) d)
  rw [errorAt_eq ht hr.whole hr.lines hr.part hr.linesPart h]
  exact .error hfail

theorem moves_failAt (ht : t.Fair) (h : t.Place whole part) (message : String) :
    t.Moves k R k' (Cursor.failAt whole message) (Cursor.failAt part message) :=
  fun _ _ hm => hm.reads.failAt ht hm.reads h message

theorem moves_failHere (ht : t.Fair) (hk : k.clean = true) (message : String) :
    t.Moves k R k' (Cursor.failHere message) (Cursor.failHere message) :=
  fun _ _ hm => hm.reads.failAt ht hm.reads (hm.place hk) message

end Failures

/-! ## Blanks and signs -/

theorem moves_skip (ht : t.Fair) {clean : Bool} :
    t.Moves ⟨n + 1, m, clean⟩ Eq (fun _ => ⟨n + 1, m, true⟩) Cursor.skip Cursor.skip := by
  intro c d h
  change Agree _ _ (.ok PUnit.unit c.skipped) (.ok PUnit.unit d.skipped)
  refine .ok ⟨rfl, (h.skipped ht).resolve_right ?_⟩
  rintro ⟨hafter, -, hchunk, -⟩
  have hle := (ht.chunk.resolve_left hafter).2
  rw [hchunk] at hle
  have hpos : ((n + 1 : Nat) : Int) ≤ 0 := hle
  omega

theorem tag?_eq (text : String) (c : Cursor) :
    Cursor.tag? text c = match after? text.toList c.rest with
      | some rest => .ok true (c.advance text.toList rest)
      | none => .ok false c := by
  rw [Cursor.tag?, get_bind]
  cases after? text.toList c.rest <;> rfl

section Signs

variable {text : String} {x : Char} {n' : Nat}

theorem alongside_tag? {fail : Cursor → Cursor → Prop} (htext : text.toList = [x])
    (hstep : Nesting.step ⟨n, .plain⟩ x = ⟨n', .plain⟩) :
    Alongside (t.Meets ⟨n, m, true⟩) (fun a b c d => a = b ∧
        t.Meets (bif a then ⟨n', m - 1, false⟩ else ⟨n, m, true⟩) c d) fail
      (Cursor.tag? text) (Cursor.tag? text) := by
  intro c d h
  rw [tag?_eq, tag?_eq, htext, h.rest]
  cases hd : d.rest with
  | nil =>
    rw [(h.goes rfl).resolve_right (not_not.mpr hd)]
    exact .ok ⟨rfl, h⟩
  | cons y ys =>
    have hone : ∀ r, after? [x] (y :: r) = if x = y then some r else none := fun _ => rfl
    rw [List.cons_append, hone, hone]
    by_cases hx : x = y
    · subst hx
      rw [if_pos rfl, if_pos rfl]
      refine .ok ⟨rfl, h.advance hd (.inl hstep) ?_ nofun⟩
      change m ≤ m - 1 + 1
      omega
    · rw [if_neg hx, if_neg hx]
      exact .ok ⟨rfl, h⟩

theorem alongside_tag (ht : t.Fair) (htext : text.toList = [x])
    (hstep : Nesting.step ⟨n, .plain⟩ x = ⟨n', .plain⟩) :
    Alongside (t.Meets ⟨n, m, true⟩) (fun a b c d => a = b ∧ t.Meets ⟨n', m - 1, false⟩ c d)
      (t.Meets ⟨n, m, true⟩) (Cursor.tag text) (Cursor.tag text) := by
  refine (alongside_tag? htext hstep).bind fun found _ => ?_
  rintro c d ⟨rfl, h⟩
  cases found with
  | true => exact .ok ⟨rfl, h⟩
  | false => exact h.reads.failAt ht h (h.place rfl) _

theorem moves_tag (ht : t.Fair) (htext : text.toList = [x])
    (hstep : Nesting.step ⟨n, .plain⟩ x = ⟨n', .plain⟩) :
    t.Moves ⟨n, m, true⟩ Eq (fun _ => ⟨n', m - 1, false⟩) (Cursor.tag text) (Cursor.tag text) :=
  fun _ _ h => (alongside_tag ht htext hstep h).imp (fun h => h) Meets.reads

end Signs

/-! ## Keywords -/

/-- A text that opens and closes nothing. -/
def IsWord (text : String) : Prop :=
  text.toList ≠ [] ∧ text.toList.all (fun x => Nesting.IsOrdinary x) = true

instance (text : String) : Decidable (IsWord text) :=
  inferInstanceAs (Decidable (_ ∧ _))

theorem IsWord.ordinary {text : String} (h : IsWord text) : ∀ x ∈ text.toList, Nesting.IsOrdinary x :=
  fun x hx => of_decide_eq_true (List.all_eq_true.mp h.2 x hx)

theorem word?_eq (text : String) (c : Cursor) :
    Cursor.word? text c = match after? text.toList c.rest with
      | some rest =>
        if Cursor.continuesName rest then .ok false c else .ok true (c.advance text.toList rest)
      | none => .ok false c := by
  rw [Cursor.word?, get_bind]
  cases after? text.toList c.rest with
  | none => rfl
  | some rest =>
    dsimp only
    split_ifs <;> rfl

theorem moves_word? (ht : t.Fair) {text : String} (hw : IsWord text) :
    t.Moves ⟨n + 1, m, true⟩ Eq (fun found => Site.past ⟨n + 1, m, true⟩ found)
      (Cursor.word? text) (Cursor.word? text) := by
  intro c d h
  have hclosing := h.closing_mem ht (Nat.succ_pos n)
  have hnot : ')' ∉ text.toList := fun hmem => (hw.ordinary _ hmem).2.2.2 rfl
  rw [word?_eq, word?_eq, h.rest, after?_append_of_mem hnot _ hclosing]
  cases hd : after? text.toList d.rest with
  | none => exact .ok ⟨rfl, h⟩
  | some rest =>
    have hrest := eq_append_of_after? hd
    have hgoes : t.after = [] ∨ rest ≠ [] := hclosing.imp_right fun hmem hnil => by
      rw [hrest, hnil, List.append_nil] at hmem
      exact hnot hmem
    have hcont : Cursor.continuesName (rest ++ t.after) = Cursor.continuesName rest := by
      rcases hgoes with hnil | hne
      · rw [hnil, List.append_nil]
      · obtain ⟨y, ys, rfl⟩ := List.exists_cons_of_ne_nil hne
        rfl
    dsimp only [Option.map]
    rw [hcont]
    split_ifs
    · exact .ok ⟨rfl, h⟩
    · refine .ok ⟨rfl, h.advance hrest (.inl (Nesting.after_plain hw.ordinary)) ?_ nofun⟩
      have hlen := List.length_pos_of_ne_nil hw.1
      change m ≤ m - 1 + text.toList.length
      omega

/-! ## Names -/

/-- A name or a value, with its position. -/
def Found (t : Cut) (a b : Nat × β) : Prop :=
  t.Place a.1 b.1 ∧ a.2 = b.2

theorem takeWhile_append_of_mem {p : Char → Bool} {r B : List Char} (h : B = [] ∨ ∃ x ∈ r, p x = false) :
    (r ++ B).takeWhile p = r.takeWhile p ∧ (r ++ B).dropWhile p = r.dropWhile p ++ B := by
  rcases h with rfl | hx
  · rw [List.append_nil, List.append_nil]
    exact ⟨rfl, rfl⟩
  induction r with
  | nil =>
    obtain ⟨x, hmem, -⟩ := hx
    exact absurd hmem List.not_mem_nil
  | cons y ys ih =>
    rw [List.cons_append]
    cases hy : p y with
    | false => simp [hy]
    | true =>
      obtain ⟨x, hmem, hpx⟩ := hx
      have hmem := (List.mem_cons.mp hmem).resolve_left fun e => by simp [e, hy] at hpx
      simp [hy, ih ⟨x, hmem, hpx⟩]

theorem Meets.nameChars (ht : t.Fair) (h : t.Meets ⟨n + 1, m, true⟩ c d) :
    ∃ read rest, d.rest = read ++ rest ∧
      Cursor.nameChars c = .ok (String.ofList read) (c.advance read (rest ++ t.after)) ∧
      Cursor.nameChars d = .ok (String.ofList read) (d.advance read rest) ∧
      t.Meets (Site.past ⟨n + 1, m, true⟩ !read.isEmpty) (c.advance read (rest ++ t.after))
        (d.advance read rest) ∧
      (d.rest.head?.any isNameChar = true → read.isEmpty = false) := by
  have hclosing : t.after = [] ∨ ∃ x ∈ d.rest, isNameChar x = false :=
    (h.closing_mem ht (Nat.succ_pos n)).imp_right fun hmem => ⟨_, hmem, by decide⟩
  obtain ⟨htake, hdrop⟩ := takeWhile_append_of_mem hclosing
  rw [← h.rest] at htake hdrop
  have hc : Cursor.nameChars c =
      .ok (String.ofList (c.rest.takeWhile isNameChar))
        (c.advance (c.rest.takeWhile isNameChar) (c.rest.dropWhile isNameChar)) := rfl
  have hd : Cursor.nameChars d =
      .ok (String.ofList (d.rest.takeWhile isNameChar))
        (d.advance (d.rest.takeWhile isNameChar) (d.rest.dropWhile isNameChar)) := rfl
  have hplain : ∀ x ∈ d.rest.takeWhile isNameChar, Nesting.IsOrdinary x := fun x hx =>
    Nesting.isOrdinary_of_isNameChar (List.all_eq_true.mp List.all_takeWhile x hx)
  have hread : d.rest.head?.any isNameChar = true → (d.rest.takeWhile isNameChar).isEmpty = false := by
    cases d.rest with
    | nil => exact nofun
    | cons y ys =>
      intro (hy : isNameChar y = true)
      rw [List.takeWhile_cons_of_pos hy]
      rfl
  have hsplit : d.rest = d.rest.takeWhile isNameChar ++ d.rest.dropWhile isNameChar :=
    List.takeWhile_append_dropWhile.symm
  rw [htake, hdrop] at hc
  generalize d.rest.takeWhile isNameChar = read, d.rest.dropWhile isNameChar = rest at *
  have hafter := Nesting.after_plain (d := (n + 1 : Nat)) hplain
  refine ⟨read, rest, hsplit, hc, hd, h.advance hsplit (.inl ?_) ?_ ?_, hread⟩
  · cases read <;> exact hafter
  · cases read with
    | nil => exact Nat.le_refl m
    | cons y ys =>
      change m ≤ m - 1 + (ys.length + 1)
      omega
  · cases read with
    | nil =>
      have hrest : d.rest = rest := hsplit
      rw [← hrest]
      exact fun _ => h.clean rfl
    | cons y ys => exact nofun

theorem isNameChar_of_isNameStart {x : Char} (h : isNameStart x = true) : isNameChar x = true := by
  rw [isNameStart, Bool.or_eq_true] at h
  rw [isNameChar, isAlphanumeric, Bool.or_eq_true, Bool.or_eq_true]
  exact h.imp_left .inl

theorem moves_name? (ht : t.Fair) :
    t.Moves ⟨n + 1, m, true⟩ (Option.Rel t.Found) (fun found => Site.past ⟨n + 1, m, true⟩ found.isSome)
      Cursor.name? Cursor.name? := by
  intro c d h
  rw [Cursor.name?, get_bind, get_bind, h.head? rfl]
  obtain ⟨read, rest, -, hc, hd, hmeets, hread⟩ := h.nameChars ht
  by_cases hstart : d.rest.head?.any isNameStart = true
  · have hne : read.isEmpty = false := hread <| by
      rw [Option.any_eq_true] at hstart ⊢
      obtain ⟨x, hx, hs⟩ := hstart
      exact ⟨x, hx, isNameChar_of_isNameStart hs⟩
    rw [hne] at hmeets
    rw [if_neg (by simp [hstart]), if_neg (by simp [hstart]), bind_ok hc, bind_ok hd]
    split_ifs
    · exact (moves_failAt ht (h.place rfl) _).bind (fun _ _ _ _ h => .ok h) hmeets
    · exact .ok ⟨.some ⟨h.place rfl, rfl⟩, hmeets⟩
  · rw [if_pos (by simp [hstart]), if_pos (by simp [hstart])]
    exact .ok ⟨.none, h⟩

theorem moves_orFail (ht : t.Fair) {x : Routine Cursor (Option (Nat × String))} {message : String}
    (hx : t.Moves ⟨n + 1, m, true⟩ (Option.Rel t.Found)
      (fun found => Site.past ⟨n + 1, m, true⟩ found.isSome) x x) :
    t.Moves ⟨n + 1, m, true⟩ t.Found (fun _ => ⟨n + 1, m - 1, false⟩)
      (x >>= fun found => match found with
        | some found => pure found
        | none => Cursor.failHere message)
      (x >>= fun found => match found with
        | some found => pure found
        | none => Cursor.failHere message) := by
  refine hx.bind fun _ _ => ?_
  rintro c d ⟨hfound, h⟩
  cases hfound with
  | some hfound => exact .ok ⟨hfound, h⟩
  | none => exact moves_failHere ht rfl _ h

theorem moves_name (ht : t.Fair) : t.Moves ⟨n + 1, m, true⟩ t.Found (fun _ => ⟨n + 1, m - 1, false⟩)
    Cursor.name Cursor.name :=
  moves_orFail ht (moves_name? ht)

/-! ## Values -/

theorem value?_quoted {c : Cursor} {r : List Char} (hr : c.rest = '"' :: r) : Cursor.value? c =
    match r.dropWhile (· ≠ '"') with
    | [] => Cursor.failAt c.position "unclosed string literal" (c.advance ['"'] r)
    | quote :: rest => .ok (some (c.position, String.ofList (r.takeWhile (· ≠ '"'))))
        ((c.advance ['"'] r).advance (r.takeWhile (· ≠ '"') ++ [quote]) rest) := by
  have htag : Cursor.tag? "\"" c = .ok true (c.advance ['"'] r) := by
    rw [tag?_eq, hr]
    rfl
  rw [Cursor.value?, get_bind, bind_ok htag, if_pos rfl, get_bind]
  change (match r.dropWhile (· ≠ '"') with | [] => _ | quote :: rest => _ : Routine Cursor _) _ = _
  cases r.dropWhile (· ≠ '"') <;> rfl

theorem value?_bare {c : Cursor} (hr : ∀ r, c.rest ≠ '"' :: r) : Cursor.value? c =
    (do
      let text ← Cursor.nameChars
      return if text.isEmpty then none else some (c.position, text) : Routine Cursor _) c := by
  have htag : Cursor.tag? "\"" c = .ok false c := by
    rw [tag?_eq]
    cases hrest : c.rest with
    | nil => rfl
    | cons y ys =>
      have hy : '"' ≠ y := fun e => hr ys (by rw [hrest, e])
      change (match if '"' = y then some ys else none with
        | some rest => _
        | none => _ : EStateM.Result Failure Cursor Bool) = _
      rw [if_neg hy]
  rw [Cursor.value?, get_bind, bind_ok htag, if_neg Bool.false_ne_true]

/-- Behind a quote that is not closed, no parenthesis is: so the whole text ends there as well. -/
theorem Meets.closed (ht : t.Fair) (h : t.Meets ⟨n + 1, m, true⟩ c d) {r : List Char} (hr : d.rest = '"' :: r) :
    t.after = [] ∨ ∃ x ∈ r, (decide (x ≠ '"')) = false := by
  refine (h.closing ht (Nat.succ_pos n)).imp_right fun hle => ?_
  by_contra hnone
  have hmem : '"' ∉ r := fun hmem => hnone ⟨_, hmem, by decide⟩
  have hafter : Nesting.after ⟨((n + 1 : Nat) : Int), .plain⟩ d.rest = ⟨((n + 1 : Nat) : Int), .quotes⟩ := by
    rw [hr]
    exact Nesting.after_quotes (d := ((n + 1 : Nat) : Int)) hmem
  rw [hafter] at hle
  have hpos : ((n + 1 : Nat) : Int) ≤ 0 := hle
  omega

theorem agree_quoted (ht : t.Fair) (h : t.Meets ⟨n + 1, m, true⟩ c d) {r : List Char} (hr : d.rest = '"' :: r) :
    Agree (fun a b c d => Option.Rel t.Found a b ∧ t.Meets (Site.past ⟨n + 1, m, true⟩ a.isSome) c d) t.Reads
      (Cursor.value? c) (Cursor.value? d) := by
  have hcr : c.rest = '"' :: (r ++ t.after) := by rw [h.rest, hr, List.cons_append]
  have hclosed := h.closed ht hr
  obtain ⟨htake, hdrop⟩ := takeWhile_append_of_mem hclosed
  have hsplit : r = r.takeWhile (· ≠ '"') ++ r.dropWhile (· ≠ '"') :=
    List.takeWhile_append_dropWhile.symm
  have hnot : '"' ∉ r.takeWhile (· ≠ '"') := fun hmem => by
    have hp := List.all_eq_true.mp List.all_takeWhile _ hmem
    exact of_decide_eq_true hp rfl
  rw [value?_quoted hr, value?_quoted hcr, htake, hdrop]
  cases hend : r.dropWhile (· ≠ '"') with
  | nil =>
    have hnil : t.after = [] := hclosed.resolve_right fun ⟨x, hx, hquote⟩ =>
      Bool.false_ne_true (hquote.symm.trans (List.dropWhile_eq_nil_iff.mp hend x hx))
    rw [hnil]
    have hreads : t.Reads (c.advance ['"'] (r ++ [])) (d.advance ['"'] r) :=
      ⟨h.reads.whole, h.reads.part, h.reads.lines, h.reads.linesPart⟩
    exact hreads.failAt ht hreads (h.place rfl) _
  | cons quote rest =>
    have hquote : quote = '"' := by
      have hnot := List.head?_dropWhile_not (· ≠ '"') r
      rw [hend] at hnot
      exact of_not_not (of_decide_eq_false hnot)
    rw [hend, hquote] at hsplit
    have hrest : d.rest = ('"' :: (r.takeWhile (· ≠ '"') ++ ['"'])) ++ rest := by
      rw [hr]
      conv_lhs => rw [hsplit]
      simp
    rw [hquote, List.cons_append]
    dsimp only
    rw [Cursor.advance_advance, Cursor.advance_advance]
    refine .ok ⟨.some ⟨h.place rfl, rfl⟩, h.advance hrest (.inl (Nesting.after_quoted hnot)) ?_ nofun⟩
    change m ≤ m - 1 + (_ + 1)
    omega

theorem agree_bare (ht : t.Fair) (h : t.Meets ⟨n + 1, m, true⟩ c d) (hd : ∀ r, d.rest ≠ '"' :: r) :
    Agree (fun a b c d => Option.Rel t.Found a b ∧ t.Meets (Site.past ⟨n + 1, m, true⟩ a.isSome) c d) t.Reads
      (Cursor.value? c) (Cursor.value? d) := by
  have hc : ∀ r, c.rest ≠ '"' :: r := fun r hr => by
    have hhead := h.head? rfl
    rw [hr] at hhead
    obtain ⟨ys, hy⟩ := List.head?_eq_some_iff.mp hhead.symm
    exact hd ys hy
  obtain ⟨read, rest, -, hreadc, hreadd, hmeets, -⟩ := h.nameChars ht
  rw [value?_bare hd, value?_bare hc, bind_ok hreadc, bind_ok hreadd]
  cases read with
  | nil => exact .ok ⟨.none, hmeets⟩
  | cons y ys =>
    have hne : (String.ofList (y :: ys)).isEmpty = false := by simp
    rw [hne, if_neg Bool.false_ne_true, if_neg Bool.false_ne_true]
    exact .ok ⟨.some ⟨h.place rfl, rfl⟩, hmeets⟩

theorem moves_value? (ht : t.Fair) :
    t.Moves ⟨n + 1, m, true⟩ (Option.Rel t.Found) (fun found => Site.past ⟨n + 1, m, true⟩ found.isSome)
      Cursor.value? Cursor.value? := by
  intro c d h
  by_cases hquote : ∃ r, d.rest = '"' :: r
  · obtain ⟨r, hr⟩ := hquote
    exact agree_quoted ht h hr
  · exact agree_bare ht h fun r hr => hquote ⟨r, hr⟩

theorem moves_value (ht : t.Fair) : t.Moves ⟨n + 1, m, true⟩ t.Found (fun _ => ⟨n + 1, m - 1, false⟩)
    Cursor.value Cursor.value :=
  moves_orFail ht (moves_value? ht)

end Cut

end RuleMonitor
