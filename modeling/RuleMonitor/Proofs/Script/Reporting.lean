import RuleMonitor.Proofs.Script.Words

/-!
# Where a cursor fails

A cursor is moved by steps, and taken back to places where it was. The failure of a step is the report on
the place from which the step starts. It names the line, with what stands on it before and behind the
character at that place, or its end. A place behind a carriage return that belongs to the end of a line is
taken for one past the last line, or cannot be reported at all if more lines follow; only texts that end
with a carriage return lead there.

* `Text.lastLine`, `Text.firstLine`: the line of a place, before and behind it.
* `Cursor.Reported`, **`Cursor.reported_report`**: the report on a place.
* `Cursor.Step`, `Cursor.Walk`: the steps, and the places that were visited.
* **`Cursor.fails_at`**: one step; **`Cursor.Walk.fails_at`**: the steps of a walk.
-/

namespace RuleMonitor

open Script Text Routine

/-! ## The line of a place -/

namespace Text

/-- What follows the last line feed. -/
def lastLine (cs : List Char) : List Char :=
  (cs.reverse.takeWhile (· ≠ '\n')).reverse

/-- What comes before the first line feed. -/
def firstLine (cs : List Char) : List Char :=
  cs.takeWhile (· ≠ '\n')

/-- What follows the first line feed. -/
def linesBehind (cs : List Char) : List Char :=
  (cs.dropWhile (· ≠ '\n')).tail

theorem not_mem_takeWhile_feed (cs : List Char) : '\n' ∉ cs.takeWhile (· ≠ '\n') := fun h => by
  have hne := List.all_eq_true.mp List.all_takeWhile _ h
  exact of_decide_eq_true hne rfl

theorem not_mem_lastLine (cs : List Char) : '\n' ∉ lastLine cs := by
  rw [lastLine, List.mem_reverse]
  exact not_mem_takeWhile_feed _

theorem exists_lastLine (cs : List Char) : ∃ done, cs = done ++ lastLine cs ∧ (done = [] ∨ Ended done) := by
  refine ⟨(cs.reverse.dropWhile (· ≠ '\n')).reverse, ?_, ?_⟩
  · rw [lastLine, ← List.reverse_append, List.takeWhile_append_dropWhile, List.reverse_reverse]
  · cases h : cs.reverse.dropWhile (· ≠ '\n') with
    | nil => exact .inl rfl
    | cons x xs =>
      have hnot := List.head?_dropWhile_not (· ≠ '\n') cs.reverse
      rw [h] at hnot
      obtain rfl : x = '\n' := of_not_not (of_decide_eq_false hnot)
      exact .inr ⟨xs.reverse, List.reverse_cons⟩

theorem exists_firstLine (cs : List Char) : '\n' ∉ firstLine cs ∧
    (cs = firstLine cs ∧ linesBehind cs = [] ∨ cs = firstLine cs ++ '\n' :: linesBehind cs) := by
  refine ⟨not_mem_takeWhile_feed cs, ?_⟩
  have hcut : cs = firstLine cs ++ cs.dropWhile (· ≠ '\n') := List.takeWhile_append_dropWhile.symm
  unfold linesBehind
  cases h : cs.dropWhile (· ≠ '\n') with
  | nil =>
    rw [h, List.append_nil] at hcut
    exact .inl ⟨hcut, rfl⟩
  | cons x xs =>
    have hnot := List.head?_dropWhile_not (· ≠ '\n') cs
    rw [h] at hnot
    obtain rfl : x = '\n' := of_not_not (of_decide_eq_false hnot)
    rw [h] at hcut
    exact .inr hcut

theorem length_cutLines {cs : List Char} (h : cs = [] ∨ Ended cs) : (cutLines cs).length = cs.count '\n' := by
  induction cs with
  | nil => rfl
  | cons c cs ih =>
    have hended : Ended ([c] ++ cs) := h.resolve_left (List.cons_ne_nil _ _)
    have hrest : cs = [] ∨ Ended cs := or_iff_not_imp_left.mpr hended.of_append
    rw [cutLines]
    by_cases hc : c = '\n'
    · rw [if_pos hc, List.length_cons, ih hrest, hc, List.count_cons_self]
    · have hne : cs ≠ [] := by
        rintro rfl
        obtain ⟨ds, hds⟩ := hended
        have hlast : [] ++ [c] = ds ++ ['\n'] := hds
        exact hc (List.cons.inj (List.append_inj' hlast rfl).2).1
      obtain ⟨line, rest, -, hcut, -⟩ := cutLines_eq_cons hne
      rw [if_neg hc, List.count_cons_of_ne hc, ← ih hrest, hcut]
      rfl

theorem cutLines_line {line : List Char} (h : '\n' ∉ line) (rest : List Char) :
    cutLines (line ++ '\n' :: rest) = (line ++ ['\n']) :: cutLines rest := by
  induction line with
  | nil => exact if_pos rfl
  | cons c line ih =>
    rw [List.mem_cons, not_or] at h
    rw [List.cons_append, cutLines, if_neg (Ne.symm h.1), ih h.2]
    rfl

theorem cutLines_lastLine {line : List Char} (h : '\n' ∉ line) (hne : line ≠ []) : cutLines line = [line] := by
  obtain ⟨first, rest, rfl, hcut, ⟨ds, rfl, -⟩ | ⟨-, -, rfl⟩⟩ := cutLines_eq_cons hne
  · exact absurd (List.mem_append_left _ (List.mem_append_right _ List.mem_cons_self)) h
  · rw [hcut, List.append_nil]
    rfl

/-! ## The content of a line -/

theorem isPrefix_trimLineEnd (cs : List Char) : trimLineEnd cs <+: cs := by
  have h := List.dropWhile_suffix (fun c : Char => c == '\n' || c == '\r') (l := cs.reverse)
  rwa [← List.reverse_prefix, List.reverse_reverse] at h

theorem mem_lineEnd {cs ends : List Char} (h : cs = trimLineEnd cs ++ ends) :
    ∀ c ∈ ends, c = '\n' ∨ c = '\r' := by
  have hcut : cs = trimLineEnd cs ++ (cs.reverse.takeWhile fun c => c == '\n' || c == '\r').reverse := by
    rw [trimLineEnd, ← List.reverse_append, List.takeWhile_append_dropWhile, List.reverse_reverse]
  obtain rfl := List.append_cancel_left (h.symm.trans hcut)
  intro c hc
  have hend := List.all_eq_true.mp List.all_takeWhile c (List.mem_reverse.mp hc)
  simpa using hend

theorem trimLineEnd_feed (cs : List Char) : trimLineEnd (cs ++ ['\n']) = trimLineEnd cs := by
  simp [trimLineEnd]

theorem byteSize_pos {cs : List Char} (h : cs ≠ []) : 0 < byteSize cs := by
  cases cs with
  | nil => exact absurd rfl h
  | cons c cs =>
    have := c.utf8Size_pos
    rw [byteSize_cons]
    omega

end Text

namespace Cursor

/-- The line of a place, without the carriage returns and the line feed at its end. -/
def content (read rest : List Char) : List Char :=
  trimLineEnd (lastLine read ++ firstLine rest)

/-- A place is at a character of the content of its line, behind it, or behind a carriage return that
belongs to the end of the line. -/
theorem content_cases (read rest : List Char) : (∃ c after, content read rest = lastLine read ++ c :: after) ∨
    content read rest = lastLine read ∨ ∃ cr ends, lastLine read = content read rest ++ cr :: ends := by
  rcases Nat.lt_or_ge (content read rest).length (lastLine read).length with h | h
  · obtain ⟨ends, hends⟩ :=
      List.prefix_of_prefix_length_le (isPrefix_trimLineEnd _) (List.prefix_append _ _) (Nat.le_of_lt h)
    cases ends with
    | nil => 
      rw [List.append_nil] at hends
      exact .inr (.inl hends)
    | cons cr ends => exact .inr (.inr ⟨cr, ends, hends.symm⟩)
  · obtain ⟨after, hafter⟩ :=
      List.prefix_of_prefix_length_le (List.prefix_append _ _) (isPrefix_trimLineEnd _) h
    cases after with
    | nil =>
      rw [List.append_nil] at hafter
      exact .inr (.inl hafter.symm)
    | cons c after => exact .inl ⟨c, after, hafter.symm⟩

/-! ## Reports -/

theorem cutBytes_append (before after : List Char) :
    cutBytes (byteSize before) (before ++ after) = (before, after) := by
  induction before with
  | nil => cases after <;> rfl
  | cons c before ih =>
    have hpos := c.utf8Size_pos
    rw [List.cons_append, cutBytes, byteSize_cons, if_neg (by omega), Nat.add_sub_cancel_left, ih]

/-- The report on a place between what was read of a text and the rest. -/
structure Reported (message : String) (lineOffset : Nat) (read rest : List Char) (e : Failure) : Prop where
  /-- A character is shown, between what stands before and behind it on its line. -/
  inside : ∀ c after, content read rest = lastLine read ++ c :: after → e = .of (.parse
    { message, before := String.ofList (lastLine read), token := String.singleton c,
      after := String.ofList after, line := some (lineOffset + read.count '\n' + 1) })
  /-- At the end of a line, a line feed is shown. -/
  atEnd : lastLine read ++ rest ≠ [] → content read rest = lastLine read → e = .of (.parse
    { message, before := String.ofList (lastLine read), token := "\\n", after := "",
      line := some (lineOffset + read.count '\n' + 1) })
  past : lastLine read ++ rest = [] → e = .of (.parse (reportEnd message (lineOffset + read.count '\n')))
  /-- Behind a carriage return in the end of the last line, nothing is shown. -/
  ending : ∀ cr ends, lastLine read = content read rest ++ cr :: ends → linesBehind rest = [] →
    e = .of (.parse (reportEnd message (lineOffset + read.count '\n' + 1)))
  /-- Behind a carriage return in the end of another line, there is no report. -/
  between : ∀ cr ends, lastLine read = content read rest ++ cr :: ends → linesBehind rest ≠ [] →
    e = .crash (.text "the place is in the end of a line")

theorem report_eq (message : String) (lineOffset : Nat) (read rest : List Char) :
    report message (byteSize read) lineOffset 0 (cutLines (read ++ rest)) =
      report message (byteSize (lastLine read)) (lineOffset + read.count '\n') 0
        (cutLines (lastLine read ++ rest)) := by
  obtain ⟨done, hread, hdone⟩ := exists_lastLine read
  have hcount : read.count '\n' = done.count '\n' := by
    rw [hread, List.count_append, List.count_eq_zero_of_not_mem (a := '\n') (not_mem_lastLine read)]
    rfl
  have hlines : cutLines (read ++ rest) = cutLines done ++ cutLines (lastLine read ++ rest) := by
    rw [← cutLines_append (hdone.imp_right .inl), ← List.append_assoc, ← hread]
  have hsize : byteSize read = byteSize done + byteSize (lastLine read) := by
    conv_lhs => rw [hread, byteSize_append]
  have hflat := flatten_cutLines done
  rw [hlines, hsize, hcount, report_drop _ _ (ended_of_mem_cutLines hdone) _ (by rw [hflat]; omega), hflat,
    length_cutLines hdone, Nat.zero_add]
  exact report_shift message _ (byteSize done) _ _ 0

theorem exists_line {read rest : List Char} (hne : lastLine read ++ rest ≠ []) : ∃ text,
    cutLines (lastLine read ++ rest) = text :: cutLines (linesBehind rest) ∧
      trimLineEnd text = content read rest ∧ byteSize (lastLine read) ≤ byteSize text ∧
      (linesBehind rest ≠ [] → byteSize (lastLine read) < byteSize text) := by
  obtain ⟨hfirst, ⟨hrest, hnone⟩ | hrest⟩ := exists_firstLine rest
  · have hfeed : '\n' ∉ lastLine read ++ rest := by
      rw [List.mem_append, not_or, hrest]
      exact ⟨not_mem_lastLine read, hfirst⟩
    refine ⟨lastLine read ++ rest, ?_, ?_, ?_, fun h => absurd hnone h⟩
    · rw [hnone, cutLines_lastLine hfeed hne]
      rfl
    · rw [content, ← hrest]
    · rw [byteSize_append]
      exact Nat.le_add_right _ _
  · have hfeed : '\n' ∉ lastLine read ++ firstLine rest :=
      fun h => (List.mem_append.mp h).elim (not_mem_lastLine read) hfirst
    have hlt : byteSize (lastLine read) < byteSize (lastLine read ++ firstLine rest ++ ['\n']) := by
      have hpos := byteSize_pos (List.cons_ne_nil '\n' [])
      rw [byteSize_append, byteSize_append]
      omega
    refine ⟨lastLine read ++ firstLine rest ++ ['\n'], ?_, trimLineEnd_feed _, Nat.le_of_lt hlt, fun _ => hlt⟩
    conv_lhs => rw [hrest, ← List.append_assoc, cutLines_line hfeed]

theorem report_of_inside (message : String) (n : Nat) {read rest after : List Char}
    (hne : lastLine read ++ rest ≠ []) (hcontent : content read rest = lastLine read ++ after) :
    report message (byteSize (lastLine read)) n 0 (cutLines (lastLine read ++ rest)) =
      .of (.parse (reportColumn message (n + 1) (lastLine read ++ after) (byteSize (lastLine read)))) := by
  obtain ⟨text, hcut, htrim, -, -⟩ := exists_line hne
  rw [hcut, report, htrim, hcontent, if_pos (by rw [byteSize_append]; omega), if_neg (Nat.not_lt_zero _),
    Nat.sub_zero]

/-- A place behind the content of its line is looked for in the lines that follow. -/
theorem report_of_behind (message : String) (n : Nat) {read rest ends : List Char} {cr : Char}
    (hends : lastLine read = content read rest ++ cr :: ends) : ∃ text,
      (linesBehind rest ≠ [] → byteSize (lastLine read) < byteSize text) ∧
      report message (byteSize (lastLine read)) n 0 (cutLines (lastLine read ++ rest)) =
        report message (byteSize (lastLine read)) (n + 1) (byteSize text) (cutLines (linesBehind rest)) := by
  have hne : lastLine read ++ rest ≠ [] := by
    rw [hends, List.append_assoc]
    exact List.append_ne_nil_of_right_ne_nil _ (List.cons_ne_nil _ _)
  obtain ⟨text, hcut, htrim, -, hlt⟩ := exists_line hne
  have hsize : byteSize (content read rest) < byteSize (lastLine read) := by
    have hpos := byteSize_pos (List.cons_ne_nil cr ends)
    conv_rhs => rw [hends, byteSize_append]
    omega
  refine ⟨text, hlt, ?_⟩
  rw [hcut, report, htrim, if_neg (by omega), Nat.zero_add]

/-- **The report on a place** of a text. -/
theorem reported_report (message : String) (lineOffset : Nat) (read rest : List Char) :
    Reported message lineOffset read rest
      (report message (byteSize read) lineOffset 0 (cutLines (read ++ rest))) := by
  rw [report_eq]
  constructor
  · intro c after hcontent
    have hne : lastLine read ++ rest ≠ [] := fun hnil => by
      obtain ⟨hlast, rfl⟩ := List.append_eq_nil_iff.mp hnil
      rw [content, hlast] at hcontent
      cases hcontent
    rw [report_of_inside message _ hne hcontent, reportColumn, cutBytes_append]
  · intro hne hcontent
    have hat : content read rest = lastLine read ++ [] := by rw [hcontent, List.append_nil]
    rw [report_of_inside message _ hne hat, reportColumn, cutBytes_append]
  · intro hnil
    rw [hnil]
    rfl
  · intro cr ends hends hlast
    obtain ⟨text, -, hreport⟩ := report_of_behind message (lineOffset + read.count '\n') hends
    rw [hreport, hlast]
    rfl
  · intro cr ends hends hmore
    obtain ⟨text, hlt, hreport⟩ := report_of_behind message (lineOffset + read.count '\n') hends
    obtain ⟨next, lines, -, hcut, -⟩ := cutLines_eq_cons hmore
    rw [hreport, hcut, report, if_pos (by have := hlt hmore; omega), if_pos (hlt hmore)]

/-! ## Steps -/

variable {α : Type} {P : Prop} {c c' : Cursor}

/-- A cursor has read on. Under a condition, it has not stopped between a carriage return and a blank. -/
def Ahead (P : Prop) (c c' : Cursor) : Prop :=
  ∃ read, c.rest = read ++ c'.rest ∧ c' = c.advance read c'.rest ∧
    (P → read = [] ∨ read.getLast? ≠ some '\r' ∨ ∀ x ∈ c'.rest.head?, isBlank x = false)

/-- A step reads on, or fails with the report on the place from which it starts. -/
inductive Ends (P : Prop) (c : Cursor) : EStateM.Result Failure Cursor α → Prop
  | ok {a : α} {c' : Cursor} (h : Ahead P c c') : Ends P c (.ok a c')
  | error {c' : Cursor} (message : String) (h : Ahead P c c') :
      Ends P c (.error (c.errorAt c.position message) c')

theorem ahead_self : Ahead P c c := by
  refine ⟨[], rfl, ?_, fun _ => .inl rfl⟩
  change c = { c with position := c.position + 0 }
  rfl

theorem ahead_advance {read rest : List Char} (h : c.rest = read ++ rest)
    (hend : P → read = [] ∨ read.getLast? ≠ some '\r') : Ahead P c (c.advance read rest) :=
  ⟨read, h, rfl, fun hP => (hend hP).imp_right .inl⟩

theorem ends_tag? (text : String) (h : P → text.toList.getLast? ≠ some '\r') : Ends P c (tag? text c) := by
  rw [Cut.tag?_eq]
  cases hafter : after? text.toList c.rest with
  | none => exact .ok ahead_self
  | some rest => exact .ok (ahead_advance (eq_append_of_after? hafter) fun hP => .inr (h hP))

theorem ends_word? (text : String) (h : P → text.toList.getLast? ≠ some '\r') : Ends P c (word? text c) := by
  rw [Cut.word?_eq]
  cases hafter : after? text.toList c.rest with
  | none => exact .ok ahead_self
  | some rest =>
    dsimp only
    split_ifs
    · exact .ok ahead_self
    · exact .ok (ahead_advance (eq_append_of_after? hafter) fun hP => .inr (h hP))

/-- Where a test that does not hold leaves the cursor alone, it can be required. -/
theorem Ends.require {x : Routine Cursor Bool} (h : Ends P c (x c))
    (hstay : ∀ {c'}, x c = .ok false c' → c' = c) (message : String) :
    Ends P c ((do if !(← x) then failHere message : Routine Cursor Unit) c) := by
  generalize hx : x c = r at h
  cases h with
  | @ok found c' h =>
    rw [bind_ok hx]
    cases found with
    | true => exact .ok h
    | false =>
      obtain rfl := hstay hx
      exact .error message h
  | error message h =>
    rw [bind_error hx]
    exact .error message h

/-- Where something that does not come next leaves the cursor alone, it can be required. -/
theorem Ends.orFail {x : Routine Cursor (Option α)} {f : Option α → Routine Cursor α} {message : String}
    (h : Ends P c (x c)) (hstay : ∀ {c'}, x c = .ok none c' → c' = c) (hsome : ∀ a, f (some a) = pure a)
    (hnone : f none = failHere message) : Ends P c ((x >>= f) c) := by
  generalize hx : x c = r at h
  cases h with
  | @ok found c' h =>
    rw [bind_ok hx]
    cases found with
    | some found =>
      rw [hsome]
      exact .ok h
    | none =>
      obtain rfl := hstay hx
      rw [hnone]
      exact .error message h
  | error message h =>
    rw [bind_error hx]
    exact .error message h

theorem ends_tag (text : String) (h : P → text.toList.getLast? ≠ some '\r') : Ends P c (tag text c) := by
  refine (ends_tag? text h).require (fun hx => ?_) _
  rw [Cut.tag?_eq] at hx
  cases hafter : after? text.toList c.rest with
  | none =>
    rw [hafter] at hx
    cases hx
    rfl
  | some rest =>
    rw [hafter] at hx
    cases hx

theorem ends_word (text : String) (h : P → text.toList.getLast? ≠ some '\r') : Ends P c (word text c) := by
  refine (ends_word? text h).require (fun hx => ?_) _
  rw [Cut.word?_eq] at hx
  cases hafter : after? text.toList c.rest with
  | none =>
    rw [hafter] at hx
    cases hx
    rfl
  | some rest =>
    rw [hafter] at hx
    dsimp only at hx
    split_ifs at hx
    · cases hx
      rfl
    · cases hx

/-- The cursor behind the characters of a name. -/
def pastName (c : Cursor) : Cursor :=
  c.advance (c.rest.takeWhile isNameChar) (c.rest.dropWhile isNameChar)

theorem ahead_pastName : Ahead P c c.pastName := by
  refine ahead_advance List.takeWhile_append_dropWhile.symm fun _ => .inr fun h => ?_
  have hname := List.all_eq_true.mp List.all_takeWhile _ (List.mem_of_getLast? h)
  exact absurd hname (by decide)

theorem name?_eq (c : Cursor) : name? c =
    if c.rest.head?.any isNameStart = true then
      let name := String.ofList (c.rest.takeWhile isNameChar)
      if isKeyword name then .error (c.errorAt c.position s!"illegal use of keyword `{name}`") c.pastName
      else .ok (some (c.position, name)) c.pastName
    else .ok none c := by
  have hname : nameChars c = .ok (String.ofList (c.rest.takeWhile isNameChar)) c.pastName := rfl
  rw [name?, get_bind]
  by_cases h : c.rest.head?.any isNameStart = true
  · rw [h, if_neg (by decide), if_pos rfl, bind_ok hname]
    dsimp only
    split_ifs <;> rfl
  · rw [if_pos (by simpa using h), if_neg h]
    rfl

theorem ends_name? : Ends P c (name? c) := by
  rw [name?_eq]
  dsimp only
  split_ifs
  · exact .error _ ahead_pastName
  · exact .ok ahead_pastName
  · exact .ok ahead_self

theorem ends_name : Ends P c (name c) := by
  refine ends_name?.orFail (fun hx => ?_) (fun _ => rfl) rfl
  rw [name?_eq] at hx
  dsimp only at hx
  split_ifs at hx
  · cases hx
  · cases hx
    rfl

theorem value?_eq_bare (h : ∀ rest, c.rest ≠ '"' :: rest) : value? c =
    .ok (if (String.ofList (c.rest.takeWhile isNameChar)).isEmpty then none
      else some (c.position, String.ofList (c.rest.takeWhile isNameChar))) c.pastName := by
  rw [Cut.value?_bare h]
  rfl

theorem ends_value? : Ends P c (value? c) := by
  by_cases hquote : ∃ rest, c.rest = '"' :: rest
  · obtain ⟨rest, hrest⟩ := hquote
    have hopen : Ahead P c (c.advance ['"'] rest) := ahead_advance hrest fun _ => .inr (by decide)
    rw [Cut.value?_quoted hrest]
    cases hend : rest.dropWhile (· ≠ '"') with
    | nil => exact .error _ hopen
    | cons quote behind =>
      have hnot := List.head?_dropWhile_not (· ≠ '"') rest
      rw [hend] at hnot
      obtain rfl : quote = '"' := of_not_not (of_decide_eq_false hnot)
      have htext : c.rest = ('"' :: (rest.takeWhile (· ≠ '"') ++ ['"'])) ++ behind := by
        rw [hrest, List.cons_append, List.append_assoc, List.singleton_append, ← hend,
          List.takeWhile_append_dropWhile]
      dsimp only
      rw [advance_advance]
      refine .ok (ahead_advance htext fun _ => .inr ?_)
      rw [List.singleton_append, ← List.cons_append, List.getLast?_concat]
      decide
  · rw [value?_eq_bare fun rest h => hquote ⟨rest, h⟩]
    exact .ok ahead_pastName

theorem ends_value : Ends P c (value c) := by
  refine ends_value?.orFail (fun {c'} hx => ?_) (fun _ => rfl) rfl
  by_cases hquote : ∃ rest, c.rest = '"' :: rest
  · obtain ⟨rest, hrest⟩ := hquote
    rw [Cut.value?_quoted hrest] at hx
    cases hend : rest.dropWhile (· ≠ '"') with
    | nil =>
      rw [hend] at hx
      cases hx
    | cons quote behind =>
      rw [hend] at hx
      cases hx
  · rw [value?_eq_bare fun rest h => hquote ⟨rest, h⟩] at hx
    obtain ⟨hnone, rfl⟩ := EStateM.Result.ok.inj hx
    split_ifs at hnone with hempty
    have hread : c.rest.takeWhile isNameChar = [] := by simpa using hempty
    have hcut := List.takeWhile_append_dropWhile (p := isNameChar) (l := c.rest)
    rw [hread, List.nil_append] at hcut
    rw [pastName, hread, hcut]
    rfl

theorem ends_skip : Ends P c (skip c) := by
  obtain ⟨ends, read, rest, h⟩ := exists_skips 0 c.rest false
  have hblanks := h.blanks c.position []
  rw [h.settled (.inl rfl), List.append_nil, List.append_nil] at hblanks
  have hskip : skip c = .ok ⟨⟩ c.skipped := rfl
  rw [hskip, skipped_eq hblanks]
  refine .ok ⟨read, h.text, rfl, fun _ => .inr (.inr fun x hx => ?_)⟩
  rcases h.rest with rfl | ⟨-, y, ys, rfl, hy, -⟩
  · cases hx
  · exact Option.some.inj hx ▸ hy

/-- What a cursor can be asked to do. -/
inductive Step where
  | skip
  | tag? (text : String)
  | tag (text : String)
  | word? (text : String)
  | word (text : String)
  | name?
  | name
  | value?
  | value
deriving DecidableEq

namespace Step

/-- Makes the step, whatever it answers. -/
def run : Step → Routine Cursor Unit
  | skip => Cursor.skip
  | tag? text => do discard (Cursor.tag? text)
  | tag text => Cursor.tag text
  | word? text => do discard (Cursor.word? text)
  | word text => Cursor.word text
  | name? => do discard Cursor.name?
  | name => do discard Cursor.name
  | value? => do discard Cursor.value?
  | value => do discard Cursor.value

/-- The step does not read a text that ends with a carriage return. -/
def Careful : Step → Prop
  | tag? text | tag text | word? text | word text => text.toList.getLast? ≠ some '\r'
  | _ => True

end Step

theorem Ahead.imp {Q : Prop} (h : Ahead P c c') (hPQ : Q → P) : Ahead Q c c' := by
  obtain ⟨read, hrest, hc', hend⟩ := h
  exact ⟨read, hrest, hc', fun hQ => hend (hPQ hQ)⟩

theorem Ends.discard {x : Routine Cursor α} (h : Ends P c (x c)) : Ends P c (discard x c) := by
  generalize hx : x c = r at h
  change Ends P c (EStateM.map (fun _ => ()) x c)
  rw [EStateM.map, hx]
  cases h with
  | ok h => exact .ok h
  | error message h => exact .error message h

/-- **A step** reads on, or fails with the report on the place from which it starts. -/
theorem ends_run (s : Step) (c : Cursor) : Ends s.Careful c (s.run c) := by
  cases s with
  | skip => exact ends_skip
  | tag? text => exact (ends_tag? text id).discard
  | tag text => exact ends_tag text id
  | word? text => exact (ends_word? text id).discard
  | word text => exact ends_word text id
  | name? => exact ends_name?.discard
  | name => exact ends_name.discard
  | value? => exact ends_value?.discard
  | value => exact ends_value.discard

theorem ahead_after (s : Step) (c : Cursor) : Ahead s.Careful c (s.run.after c) := by
  have h := ends_run s c
  generalize hr : s.run c = r at h
  cases h with
  | ok h => rwa [after_eq hr]
  | error message h => rwa [after_eq_of_error hr]

/-! ## Walks -/

/-- The places that were visited, the current one first: steps of a kind, also failing ones, lead from one
to the other, and a cursor can be taken back to any of them. -/
inductive Walk (K : Step → Prop) (source : List Char) (lineOffset : Nat) : List Cursor → Prop
  | start : Walk K source lineOffset [.start source lineOffset]
  | step {c : Cursor} {visited : List Cursor} (h : Walk K source lineOffset (c :: visited)) {s : Step}
      (hs : K s) : Walk K source lineOffset (s.run.after c :: c :: visited)
  | back {visited : List Cursor} (h : Walk K source lineOffset visited) {c : Cursor} (hc : c ∈ visited) :
      Walk K source lineOffset (c :: visited)

/-- The cursor is at a place of a text, behind what it has read. Under a condition, it has not stopped
between a carriage return and a blank. -/
structure At (P : Prop) (source : List Char) (lineOffset : Nat) (c : Cursor) (read : List Char) : Prop where
  text : source = read ++ c.rest
  source : c.source = source
  lineOffset : c.lineOffset = lineOffset
  position : c.position = byteSize read
  settled : P → read.getLast? ≠ some '\r' ∨ ∀ x ∈ c.rest.head?, isBlank x = false

variable {K : Step → Prop} {source : List Char} {lineOffset : Nat}

theorem At.ahead {read : List Char} (h : At P source lineOffset c read) (ha : Ahead P c c') :
    ∃ read', At P source lineOffset c' read' := by
  obtain ⟨more, hrest, hc', hmore⟩ := ha
  rw [hc']
  refine ⟨read ++ more, ?_, h.source, h.lineOffset, ?_, fun hP => ?_⟩
  · rw [List.append_assoc, h.text, hrest]
    rfl
  · rw [byteSize_append, ← h.position]
    rfl
  · rcases hmore hP with rfl | hlast | hnext
    · rw [List.append_nil]
      have hsame : c.rest = c'.rest := hrest
      exact hsame ▸ h.settled hP
    · by_cases hnil : more = []
      · subst hnil
        rw [List.append_nil]
        have hsame : c.rest = c'.rest := hrest
        exact hsame ▸ h.settled hP
      · refine .inl ?_
        rwa [List.getLast?_append_of_ne_nil _ hnil]
    · exact .inr hnext

theorem Walk.at {visited : List Cursor} (h : Walk K source lineOffset visited) : ∀ c ∈ visited,
    ∃ read, At (∀ s, K s → s.Careful) source lineOffset c read := by
  induction h with
  | start =>
    rw [List.forall_mem_singleton]
    exact ⟨[], rfl, rfl, rfl, rfl, fun _ => .inl nofun⟩
  | @step c visited _ s hs ih =>
    refine List.forall_mem_cons.mpr ⟨?_, ih⟩
    obtain ⟨read, hread⟩ := ih c List.mem_cons_self
    exact hread.ahead ((ahead_after s c).imp fun h => h s hs)
  | back _ hc ih => exact List.forall_mem_cons.mpr ⟨ih _ hc, ih⟩

/-- Between a carriage return and what follows it in the end of a line, a blank comes next. -/
theorem blank_of_ending {read rest ends : List Char} {cr : Char}
    (hends : lastLine read = content read rest ++ cr :: ends) (hmore : linesBehind rest ≠ []) :
    read.getLast? = some '\r' ∧ ∃ x ∈ rest.head?, isBlank x = true := by
  have hline : lastLine read ++ firstLine rest = content read rest ++ (cr :: ends ++ firstLine rest) := by
    rw [← List.append_assoc, ← hends]
  have hcr : ∀ x ∈ cr :: ends ++ firstLine rest, x = '\r' := fun x hx => by
    refine (mem_lineEnd hline x hx).resolve_left ?_
    rintro rfl
    rcases List.mem_append.mp hx with hx | hx
    · exact not_mem_lastLine read (hends ▸ List.mem_append_right _ hx)
    · exact (exists_firstLine rest).1 hx
  obtain ⟨done, hread, -⟩ := exists_lastLine read
  refine ⟨?_, ?_⟩
  · rw [hread, hends, ← List.append_assoc, List.getLast?_append_of_ne_nil _ (List.cons_ne_nil _ _),
      List.getLast?_eq_some_getLast (List.cons_ne_nil cr ends)]
    exact congrArg some (hcr _ (List.mem_append_left _ (List.getLast_mem _)))
  · have hrest := (exists_firstLine rest).2.resolve_left fun h => hmore h.2
    rw [hrest]
    cases hfirst : firstLine rest with
    | nil => exact ⟨'\n', rfl, by decide⟩
    | cons x xs =>
      obtain rfl := hcr x (List.mem_append_right _ (hfirst ▸ List.mem_cons_self))
      exact ⟨'\r', rfl, by decide⟩

/-- A place where the cursor can stop without having read a carriage return last. -/
theorem At.reported {read : List Char} (h : At P source lineOffset c read) (hP : P) {message : String}
    {e : Failure} (he : Reported message lineOffset read c.rest e) : ∃ err, e = .of (.parse err) := by
  rcases content_cases read c.rest with ⟨x, after, hcontent⟩ | hcontent | ⟨cr, ends, hends⟩
  · exact ⟨_, he.inside x after hcontent⟩
  · by_cases hnil : lastLine read ++ c.rest = []
    · exact ⟨_, he.past hnil⟩
    · exact ⟨_, he.atEnd hnil hcontent⟩
  · by_cases hmore : linesBehind c.rest = []
    · exact ⟨_, he.ending cr ends hends hmore⟩
    · obtain ⟨hlast, x, hx, hblank⟩ := blank_of_ending hends hmore
      rcases h.settled hP with hnot | hnot
      · exact absurd hlast hnot
      · exact absurd hblank (by rw [hnot x hx]; exact Bool.false_ne_true)

/-- **The failures of a walk** through a text. From any place that was visited, a step that fails reports on
that place: the line, and what stands on it before the place, at it and behind it, or that there is no line
any more. Only behind a carriage return in the end of its line is a place not reported on. Where no text that
is read ends with a carriage return, the failure is always an error in the text. -/
theorem Walk.fails_at {visited : List Cursor} (h : Walk K source lineOffset (c :: visited)) {s : Step}
    {e : Failure} (he : s.run c = .error e c') :
    (∃ read message, source = read ++ c.rest ∧ c.position = byteSize read ∧
      Reported message lineOffset read c.rest e) ∧
    ((∀ s, K s → s.Careful) → ∃ err, e = .of (.parse err)) := by
  obtain ⟨read, hread⟩ := h.at c List.mem_cons_self
  have hends := ends_run s c
  rw [he] at hends
  cases hends with
  | error message _ =>
    have hreported : Reported message lineOffset read c.rest (c.errorAt c.position message) := by
      rw [errorAt, hread.source, hread.lineOffset, hread.position, hread.text]
      exact reported_report message lineOffset read c.rest
    exact ⟨⟨read, message, hread.text, hread.position, hreported⟩, fun hK => hread.reported hK hreported⟩

end Cursor

/-! ## Two walks -/

namespace Sample

/-- A line with letters of two bytes. -/
def verse : List Char :=
  "(é ü)\n".toList

/-- Two lines that are ended by a carriage return and a line feed. -/
def crossing : List Char :=
  "ab\r\ncd".toList

theorem walk_verse : Cursor.Walk Cursor.Step.Careful verse 4
    [⟨verse, 4, 4, "ü)\n".toList⟩, ⟨verse, 4, 3, " ü)\n".toList⟩, .start verse 4] :=
  have htag : (Cursor.Step.tag "(é").run.after (.start verse 4) = ⟨verse, 4, 3, " ü)\n".toList⟩ := rfl
  have hskip : Cursor.Step.skip.run.after ⟨verse, 4, 3, " ü)\n".toList⟩ =
      ⟨verse, 4, 4, "ü)\n".toList⟩ := rfl
  have hcareful : (Cursor.Step.tag "(é").Careful :=
    (by decide : "(é".toList.getLast? ≠ some '\r')
  hskip ▸ .step (htag ▸ .step .start hcareful) (s := .skip) trivial

theorem walk_crossing : Cursor.Walk (fun _ => True) crossing 0
    [⟨crossing, 0, 3, "\ncd".toList⟩, .start crossing 0] :=
  have htag : (Cursor.Step.tag "ab\r").run.after (.start crossing 0) = ⟨crossing, 0, 3, "\ncd".toList⟩ := rfl
  htag ▸ .step .start (s := .tag "ab\r") trivial

end Sample

namespace Cursor

theorem Walk.fails_at_sample :
    let c : Cursor := ⟨Sample.verse, 4, 4, "ü)\n".toList⟩
    let e : Failure := .of (.parse ⟨"expected `end`", "(é ", "ü", ")", some 5⟩)
    Walk Step.Careful Sample.verse 4 [c, ⟨Sample.verse, 4, 3, " ü)\n".toList⟩, .start Sample.verse 4] ∧
      Step.run (.word "end") c = .error e c ∧
      ∃ read message, Sample.verse = read ++ c.rest ∧ c.position = byteSize read ∧
        Reported message 4 read c.rest e := by
  intro c e
  have he : Step.run (.word "end") c = .error e c := by rfl
  exact ⟨Sample.walk_verse, he, (Sample.walk_verse.fails_at he).1⟩

/-- **A place that cannot be reported**: behind the carriage return of the first line. -/
theorem Walk.crashes : ¬∀ (source : List Char) (lineOffset : Nat) (c c' : Cursor) (visited : List Cursor)
    (s : Step) (e : Failure), Walk (fun _ => True) source lineOffset (c :: visited) → s.run c = .error e c' →
      ∃ err, e = .of (.parse err) := by
  intro h
  obtain ⟨err, herr⟩ := h _ _ _ _ _ (.tag "x") _ Sample.walk_crossing rfl
  have hcrash : errorAt ⟨Sample.crossing, 0, 3, "\ncd".toList⟩ 3 "expected `x`" = .of (.parse err) := herr
  have hat : errorAt ⟨Sample.crossing, 0, 3, "\ncd".toList⟩ 3 "expected `x`" =
      .crash (.text "the place is in the end of a line") := by rfl
  cases hat.symm.trans hcrash

end Cursor

end RuleMonitor
