import RuleMonitor.Proofs.Script.Nesting
import RuleMonitor.Script.Cursor

/-!
# Places in a part of a text

A part of a text is read with the number of lines before it. What is reported on a place of the part is
what is reported on the same place of the whole text, if the part consists of whole lines, and the place
is not in the end of a line.

* `Cut`: a text cut into three; `Cut.Place`: one place in the text and in its middle part.
* `Cursor.report_drop`, `Cursor.report_shift`, `Cursor.report_append`: reports and lines that do not
  matter to them.
* **`Cut.errorAt_eq`**: the report on a place.
-/

namespace RuleMonitor

open Text

namespace Text

theorem trimLineEnd_append {ds : List Char} {c : Char} (h : c ≠ '\n' ∧ c ≠ '\r') (cs : List Char) :
    ∃ es, trimLineEnd (cs ++ c :: ds) = cs ++ c :: es := by
  have hc : (c == '\n' || c == '\r') = false := by simp [h]
  unfold trimLineEnd
  rw [List.reverse_append, List.reverse_cons, List.append_assoc, List.singleton_append,
    List.dropWhile_append]
  split_ifs
  · rw [List.dropWhile_cons_of_neg (by simp [hc])]
    exact ⟨[], by simp⟩
  · exact ⟨(ds.reverse.dropWhile fun c => c == '\n' || c == '\r').reverse, by simp⟩

theorem byteSize_trimLineEnd_le (cs : List Char) : byteSize (trimLineEnd cs) ≤ byteSize cs := by
  obtain ⟨ds, hds⟩ := List.dropWhile_suffix (fun c : Char => c == '\n' || c == '\r') (l := cs.reverse)
  have hcs : cs = trimLineEnd cs ++ ds.reverse := by
    have := congrArg List.reverse hds
    rw [List.reverse_append, List.reverse_reverse] at this
    exact this.symm
  have hsize := congrArg byteSize hcs
  rw [byteSize_append] at hsize
  omega

theorem byteSize_trimLineEnd_lt {cs : List Char} (h : Ended cs) :
    byteSize (trimLineEnd cs) < byteSize cs := by
  obtain ⟨ds, rfl⟩ := h
  have htrim : trimLineEnd (ds ++ ['\n']) = trimLineEnd ds := by
    simp [trimLineEnd]
  have hle := byteSize_trimLineEnd_le ds
  have hfeed : ('\n').utf8Size = 1 := rfl
  rw [htrim, byteSize_append, byteSize_cons, byteSize_nil, hfeed]
  omega

theorem Ended.of_append {cs ds : List Char} (h : Ended (cs ++ ds)) (hd : ds ≠ []) : Ended ds := by
  obtain ⟨es, hes⟩ := h
  obtain ⟨fs, c, rfl⟩ := (List.eq_nil_or_concat ds).resolve_left hd
  rw [List.concat_eq_append, ← List.append_assoc] at hes
  obtain ⟨-, hc⟩ := List.append_inj' hes rfl
  exact ⟨fs, by rw [List.concat_eq_append, hc]⟩

theorem ended_of_mem_cutLines {cs : List Char} (h : cs = [] ∨ Ended cs) :
    ∀ line ∈ cutLines cs, Ended line := by
  induction hk : cs.length using Nat.strongRecOn generalizing cs with
  | _ k ih =>
    intro line hline
    by_cases hcs : cs = []
    · rw [hcs] at hline
      exact absurd hline List.not_mem_nil
    have hended := h.resolve_left hcs
    obtain ⟨first, rest, rfl, hcut, hfirst⟩ := cutLines_eq_cons hcs
    have hend : Ended first := by
      rcases hfirst with ⟨ds, hds, -⟩ | ⟨-, hfeed, rfl⟩
      · exact ⟨ds, hds⟩
      · obtain ⟨ds, hds⟩ := hended
        rw [List.append_nil] at hds
        exact absurd (hds ▸ List.mem_append_right _ List.mem_cons_self) hfeed
    rw [hcut] at hline
    rcases List.mem_cons.mp hline with rfl | hline
    · exact hend
    · have hne : first ≠ [] := by
        obtain ⟨ds, rfl⟩ := hend
        exact List.append_ne_nil_of_right_ne_nil _ (List.cons_ne_nil _ _)
      have hlt : rest.length < k := by
        have := List.length_pos_of_ne_nil hne
        rw [← hk, List.length_append]
        omega
      exact ih _ hlt (or_iff_not_imp_left.mpr fun hr => hended.of_append hr) rfl line hline

end Text

/-! ## Reports -/

namespace Cursor

variable (message : String) (position : Nat) {lines : List (List Char)}

theorem report_drop (h : ∀ l ∈ lines, Ended l) (rest : List (List Char)) : ∀ {line start : Nat},
    start + byteSize lines.flatten ≤ position →
    report message position line start (lines ++ rest) =
      report message position (line + lines.length) (start + byteSize lines.flatten) rest := by
  induction lines with
  | nil => exact fun _ => rfl
  | cons text lines ih =>
    intro line start hle
    rw [List.forall_mem_cons] at h
    rw [List.flatten_cons, byteSize_append] at hle ⊢
    have hlt := byteSize_trimLineEnd_lt h.1
    rw [List.cons_append, report, if_neg (by omega), ih h.2 (by omega), List.length_cons,
      Nat.add_assoc line, Nat.add_comm 1, Nat.add_assoc start]

theorem report_shift (n : Nat) : ∀ (lines : List (List Char)) (line start : Nat),
    report message (n + position) line (n + start) lines = report message position line start lines
  | [], _, _ => rfl
  | text :: rest, line, start => by
    rw [report, report, Nat.add_assoc, Nat.add_assoc, report_shift n rest]
    simp only [Nat.add_le_add_iff_left, Nat.add_lt_add_iff_left, Nat.add_sub_add_left]

theorem report_append (rest : List (List Char)) {c : Char} (hc : c ≠ '\n' ∧ c ≠ '\r')
    {ds : List Char} : ∀ (line start : Nat) {cs : List Char}, lines.flatten = cs ++ c :: ds →
    report message (start + byteSize cs) line start (lines ++ rest) =
      report message (start + byteSize cs) line start lines := by
  induction lines with
  | nil =>
    intro line start cs h
    exact absurd h.symm (List.append_ne_nil_of_right_ne_nil _ (List.cons_ne_nil _ _))
  | cons text lines ih =>
    intro line start cs h
    rw [List.cons_append, report, report]
    by_cases hstop : start + byteSize cs ≤ start + byteSize (trimLineEnd text)
    · rw [if_pos hstop, if_pos hstop]
    · rw [if_neg hstop, if_neg hstop]
      have hlater : ∃ es, cs = text ++ es ∧ lines.flatten = es ++ c :: ds := by
        rw [List.flatten_cons] at h
        rcases List.append_eq_append_iff.mp h with ⟨es, hes, hflat⟩ | ⟨es, hes, hflat⟩
        · exact ⟨es, hes, hflat⟩
        · cases es with
          | nil => exact ⟨[], by simpa using hes.symm, hflat.symm⟩
          | cons e es =>
            obtain ⟨rfl, -⟩ := List.cons.inj hflat
            obtain ⟨fs, hfs⟩ : ∃ fs, trimLineEnd (cs ++ c :: es) = cs ++ c :: fs :=
              trimLineEnd_append hc cs
            refine absurd ?_ hstop
            rw [hes, hfs, byteSize_append]
            omega
      obtain ⟨es, rfl, hflat⟩ := hlater
      rw [byteSize_append, ← Nat.add_assoc]
      exact ih line.succ _ hflat

end Cursor

/-! ## Texts cut into three -/

/-- A text that follows some lines, cut into three. -/
structure Cut where
  before : List Char
  chunk : List Char
  after : List Char
  lineOffset : Nat

namespace Cut

variable {t : Cut}

/-- The parts consist of whole lines, and unless the chunk is the last part, it closes as many parentheses
as it opens. -/
structure Fair (t : Cut) : Prop where
  before : t.before = [] ∨ Ended t.before
  chunk : t.after = [] ∨ Ended t.chunk ∧ (Nesting.after {} t.chunk).depth ≤ 0

/-- The place of the whole text is the one of its chunk, and not in the end of a line of the chunk, unless
there is nothing after the chunk. -/
def Place (t : Cut) (whole part : Nat) : Prop :=
  whole = byteSize t.before + part ∧ (t.after = [] ∨ ∃ cs c ds, t.chunk = cs ++ c :: ds ∧
    part = byteSize cs ∧ c ≠ '\n' ∧ c ≠ '\r')

/-- **The report on a place** is the same for the whole text and for its chunk. -/
theorem errorAt_eq (ht : t.Fair) {c d : Cursor} {whole part : Nat}
    (hc : c.source = t.before ++ t.chunk ++ t.after) (hcl : c.lineOffset = t.lineOffset)
    (hd : d.source = t.chunk) (hdl : d.lineOffset = t.lineOffset + (cutLines t.before).length)
    (h : t.Place whole part) (message : String) :
    c.errorAt whole message = d.errorAt part message := by
  obtain ⟨rfl, hplace⟩ := h
  have hlines : cutLines (t.before ++ t.chunk ++ t.after) =
      cutLines t.before ++ (cutLines t.chunk ++ cutLines t.after) := by
    rw [List.append_assoc, cutLines_append (ht.before.imp_right .inl),
      cutLines_append (.inr (ht.chunk.symm.imp_left And.left))]
  have hbefore := flatten_cutLines t.before
  unfold Cursor.errorAt
  rw [hc, hd, hcl, hdl, hlines, Cursor.report_drop _ _ (ended_of_mem_cutLines ht.before) _
    (by rw [hbefore]; omega), hbefore, Nat.zero_add]
  have hshift := Cursor.report_shift message part (byteSize t.before)
    (cutLines t.chunk ++ cutLines t.after) (t.lineOffset + (cutLines t.before).length) 0
  rw [Nat.add_zero] at hshift
  rw [hshift]
  rcases hplace with hafter | ⟨cs, ch, ds, hchunk, rfl, hch⟩
  · rw [hafter]
    exact congrArg _ (List.append_nil _)
  · have happend := Cursor.report_append message (cutLines t.after) hch
      (t.lineOffset + (cutLines t.before).length) 0 ((flatten_cutLines t.chunk).trans hchunk)
    rwa [Nat.zero_add] at happend

end Cut

end RuleMonitor
