import Mathlib.Data.List.Basic
import Mathlib.Tactic.SplitIfs
import RuleMonitor.Script.Chunk

/-!
# What a text leaves open

Looked at character by character, a text opens and closes parentheses, quotes and comments. A chunk is
cut where all parentheses are closed again, and what its lines opened is counted in the same way, so
that a source is cut into texts that close what they open.

* `Nesting`: what is open; `Nesting.after`: what is open after a text.
* `ChunkScan.nesting_line`: the count of a line agrees with its characters.
* `Text.cutLines_append`: the lines of two texts.
* **`readChunk_ofText`**: the first chunk of a text.
-/

namespace RuleMonitor

open Text

/-- Where a character may stand. -/
inductive Zone where
  | plain
  | quotes
  | comment
deriving DecidableEq, Repr

/-- What a text leaves open. -/
structure Nesting where
  /-- The number of parentheses. -/
  depth : Int := 0
  zone : Zone := .plain
deriving DecidableEq, Repr

namespace Nesting

variable {s : Nesting} {cs ds : List Char}

/-- What is open after one more character. -/
def step (s : Nesting) (c : Char) : Nesting :=
  match s.zone with
  | .plain =>
    if c = '"' then { s with zone := .quotes }
    else if c = ';' then { s with zone := .comment }
    else if c = '(' then { s with depth := s.depth + 1 }
    else if c = ')' then { s with depth := s.depth - 1 }
    else s
  | .quotes => if c = '"' then { s with zone := .plain } else s
  | .comment => if c = '\n' then { s with zone := .plain } else s

/-- What is open after a text. -/
def after (s : Nesting) (cs : List Char) : Nesting :=
  cs.foldl step s

@[simp] theorem after_nil (s : Nesting) : s.after [] = s := rfl

@[simp] theorem after_cons (s : Nesting) (c : Char) (cs : List Char) :
    s.after (c :: cs) = (s.step c).after cs := rfl

theorem after_append (s : Nesting) (cs ds : List Char) :
    s.after (cs ++ ds) = (s.after cs).after ds :=
  List.foldl_append

/-- The character opens and closes nothing, unless it ends a comment. -/
def IsOrdinary (c : Char) : Prop :=
  c ≠ '"' ∧ c ≠ ';' ∧ c ≠ '(' ∧ c ≠ ')'

instance (c : Char) : Decidable (IsOrdinary c) :=
  inferInstanceAs (Decidable (_ ∧ _))

theorem step_plain {d : Int} {c : Char} (h : IsOrdinary c) : step ⟨d, .plain⟩ c = ⟨d, .plain⟩ := by
  obtain ⟨hq, hs, ho, hc⟩ := h
  simp [step, hq, hs, ho, hc]

theorem step_open (n : Nat) : step ⟨n, .plain⟩ '(' = ⟨(n + 1 : Nat), .plain⟩ := rfl

theorem step_close (n : Nat) : step ⟨(n + 1 : Nat), .plain⟩ ')' = ⟨n, .plain⟩ := by
  simp [step]

theorem after_plain {d : Int} (h : ∀ c ∈ cs, IsOrdinary c) :
    after ⟨d, .plain⟩ cs = ⟨d, .plain⟩ := by
  induction cs with
  | nil => rfl
  | cons c cs ih =>
    rw [List.forall_mem_cons] at h
    rw [after_cons, step_plain h.1, ih h.2]

theorem after_quotes {d : Int} (h : '"' ∉ cs) : after ⟨d, .quotes⟩ cs = ⟨d, .quotes⟩ := by
  induction cs with
  | nil => rfl
  | cons c cs ih =>
    rw [List.mem_cons, not_or] at h
    have hc : step ⟨d, .quotes⟩ c = ⟨d, .quotes⟩ := if_neg (Ne.symm h.1)
    rw [after_cons, hc, ih h.2]

theorem after_quoted {d : Int} (h : '"' ∉ cs) : after ⟨d, .plain⟩ ('"' :: (cs ++ ['"'])) = ⟨d, .plain⟩ := by
  have hopen : step ⟨d, .plain⟩ '"' = ⟨d, .quotes⟩ := rfl
  rw [after_cons, hopen, after_append, after_quotes h]
  rfl

theorem after_comment {d : Int} (h : '\n' ∉ cs) : after ⟨d, .comment⟩ cs = ⟨d, .comment⟩ := by
  induction cs with
  | nil => rfl
  | cons c cs ih =>
    rw [List.mem_cons, not_or] at h
    have hc : step ⟨d, .comment⟩ c = ⟨d, .comment⟩ := if_neg (Ne.symm h.1)
    rw [after_cons, hc, ih h.2]

theorem depth_le_step {c : Char} (h : c ≠ ')') : s.depth ≤ (s.step c).depth := by
  have hone : s.depth ≤ s.depth + 1 := by omega
  unfold step
  split
  · rw [if_neg h]
    split_ifs
    · exact Int.le_refl _
    · exact Int.le_refl _
    · exact hone
    · exact Int.le_refl _
  · split_ifs <;> exact Int.le_refl _
  · split_ifs <;> exact Int.le_refl _

/-- **Without a closing parenthesis** nothing is closed. -/
theorem depth_le_after (h : ')' ∉ cs) : s.depth ≤ (s.after cs).depth := by
  induction cs generalizing s with
  | nil => exact Int.le_refl _
  | cons c cs ih =>
    rw [List.mem_cons, not_or] at h
    exact Int.le_trans (depth_le_step (Ne.symm h.1)) (ih h.2)

/-- What closes the parentheses that are open has a closing parenthesis. -/
theorem closing_mem (h : 0 < s.depth) (hc : (s.after cs).depth ≤ 0) : ')' ∈ cs := by
  by_contra hn
  have hle := depth_le_after (s := s) hn
  omega

end Nesting

/-! ## Lines -/

namespace Text

/-- A text whose last line is ended. -/
def Ended (cs : List Char) : Prop :=
  ∃ ds, cs = ds ++ ['\n']

theorem cutLines_eq_cons {cs : List Char} (h : cs ≠ []) : ∃ line rest, cs = line ++ rest ∧
    cutLines cs = line :: cutLines rest ∧
      ((∃ ds, line = ds ++ ['\n'] ∧ '\n' ∉ ds) ∨ line ≠ [] ∧ '\n' ∉ line ∧ rest = []) := by
  induction cs with
  | nil => exact absurd rfl h
  | cons c cs ih =>
    by_cases hc : c = '\n'
    · exact ⟨[c], cs, rfl, by rw [cutLines, if_pos hc], .inl ⟨[], by rw [hc]; rfl, List.not_mem_nil⟩⟩
    · have hne : '\n' ≠ c := fun e => hc e.symm
      by_cases hcs : cs = []
      · subst hcs
        exact ⟨[c], [], rfl, if_neg hc, .inr ⟨List.cons_ne_nil _ _,
          fun hm => hne (List.mem_singleton.mp hm), rfl⟩⟩
      · obtain ⟨line, rest, rfl, hcut, hline⟩ := ih hcs
        refine ⟨c :: line, rest, rfl, by rw [cutLines, if_neg hc, hcut], ?_⟩
        rcases hline with ⟨ds, rfl, hds⟩ | ⟨-, hline, hrest⟩
        · exact .inl ⟨c :: ds, rfl, by simp [hne, hds]⟩
        · exact .inr ⟨List.cons_ne_nil _ _, by simp [hne, hline], hrest⟩

/-- **The lines of two texts**, the first of which ends with a line. -/
theorem cutLines_append {cs ds : List Char} (h : cs = [] ∨ Ended cs ∨ ds = []) :
    cutLines (cs ++ ds) = cutLines cs ++ cutLines ds := by
  rcases h with rfl | ⟨es, rfl⟩ | rfl
  · rfl
  · rw [List.append_assoc, List.singleton_append]
    induction es with
    | nil => rw [List.nil_append, List.nil_append, cutLines, if_pos rfl, cutLines, if_pos rfl]; rfl
    | cons c es ih =>
      rw [List.cons_append, List.cons_append, cutLines, cutLines, ih]
      split_ifs
      · rfl
      · have hne : es ++ ['\n'] ≠ [] := List.append_ne_nil_of_right_ne_nil _ (List.cons_ne_nil _ _)
        obtain ⟨line, rest, -, hcut, -⟩ := cutLines_eq_cons hne
        rw [hcut]
        rfl
  · rw [List.append_nil]
    exact (List.append_nil _).symm

end Text

theorem Nesting.zone_after {s : Nesting} {cs : List Char} (h : Ended cs) :
    (s.after cs).zone ≠ .comment := by
  obtain ⟨ds, rfl⟩ := h
  rw [after_append]
  change ((s.after ds).step '\n').zone ≠ .comment
  obtain ⟨depth, zone⟩ := s.after ds
  cases zone <;> exact nofun

/-! ## Chunks -/

/-- What the lines of a chunk leave open. -/
def ChunkScan.nesting (s : ChunkScan) : Nesting :=
  ⟨s.depth, if s.quoted then .quotes else .plain⟩

/-- **The count of a line** agrees with its characters. -/
theorem ChunkScan.nesting_line {cs : List Char} (h : '\n' ∉ cs) : ∀ s : ChunkScan,
    (s.line (cs ++ ['\n'])).nesting = s.nesting.after (cs ++ ['\n']) := by
  induction cs with
  | nil =>
    rintro ⟨d, o, q⟩
    cases q <;> rfl
  | cons c cs ih =>
    rw [List.mem_cons, not_or] at h
    rintro ⟨d, o, q⟩
    rw [List.cons_append, Nesting.after_cons, line]
    by_cases hquote : c = '"'
    · subst hquote
      rw [if_pos rfl, ih h.2]
      cases q <;> rfl
    rw [if_neg hquote]
    cases q with
    | true =>
      have hstep : Nesting.step ⟨d, .quotes⟩ c = ⟨d, .quotes⟩ := if_neg hquote
      rw [if_pos rfl, ih h.2]
      exact congrArg (Nesting.after · (cs ++ ['\n'])) hstep.symm
    | false =>
      rw [if_neg Bool.false_ne_true]
      by_cases hcomment : c = ';'
      · subst hcomment
        rw [if_pos rfl, Nesting.after_append]
        change _ = (Nesting.after ⟨d, .comment⟩ cs).after ['\n']
        rw [Nesting.after_comment h.2]
        rfl
      rw [if_neg hcomment]
      by_cases hopen : c = '('
      · subst hopen
        rw [if_pos rfl, ih h.2]
        rfl
      rw [if_neg hopen]
      by_cases hclose : c = ')'
      · subst hclose
        rw [if_pos rfl, ih h.2]
        rfl
      rw [if_neg hclose, ih h.2]
      have hstep := Nesting.step_plain (d := d) ⟨hquote, hcomment, hopen, hclose⟩
      exact congrArg (Nesting.after · (cs ++ ['\n'])) hstep.symm

theorem ChunkScan.depth_nonpos {s : ChunkScan} (h : s.isComplete = true) : s.nesting.depth ≤ 0 := by
  unfold isComplete at h
  change s.depth ≤ 0
  simp only [Bool.or_eq_true, Bool.and_eq_true, decide_eq_true_eq] at h
  omega

/-- The first lines of a text, which close what was opened unless they are all lines. -/
theorem readChunkFrom_ofText (cs : List Char) (scan : ChunkScan) (n : Nat) (text : List Char) :
    ∃ chunk rest, cs = chunk ++ rest ∧
      readChunkFrom scan n text (SourceLine.ofText cs) =
        .ok ⟨n + (cutLines chunk).length, text ++ chunk, SourceLine.ofText rest⟩ ∧
      (cs ≠ [] → chunk ≠ []) ∧
      (rest = [] ∨ Ended chunk ∧ (scan.nesting.after chunk).depth ≤ 0) := by
  induction hk : cs.length using Nat.strongRecOn generalizing cs scan n text with
  | _ k ih =>
    by_cases hcs : cs = []
    · subst hcs
      exact ⟨[], [], rfl, by simp [SourceLine.ofText, readChunkFrom, cutLines], fun h => h, .inl rfl⟩
    obtain ⟨line, rest, rfl, hcut, hline⟩ := cutLines_eq_cons hcs
    have hsource : SourceLine.ofText (line ++ rest) = .text line :: SourceLine.ofText rest := by
      rw [SourceLine.ofText, hcut]
      rfl
    have hone : line ≠ [] ∧ cutLines line = [line] ∧ (rest = [] ∨ Ended line ∧
        (scan.line line).nesting = scan.nesting.after line) := by
      rcases hline with ⟨ds, rfl, hds⟩ | ⟨hne, -, rfl⟩
      · have hcut' : cutLines (ds ++ ['\n'] ++ rest) = cutLines (ds ++ ['\n']) ++ cutLines rest :=
          cutLines_append (.inr (.inl ⟨ds, rfl⟩))
        rw [hcut, ← List.singleton_append] at hcut'
        exact ⟨List.append_ne_nil_of_right_ne_nil _ (List.cons_ne_nil _ _),
          (List.append_cancel_right hcut').symm, .inr ⟨⟨ds, rfl⟩, scan.nesting_line hds⟩⟩
      · rw [List.append_nil] at hcut
        exact ⟨hne, hcut, .inl rfl⟩
    obtain ⟨hne, hlines, hend⟩ := hone
    rw [hsource, readChunkFrom]
    by_cases hdone : (scan.line line).isComplete = true
    · refine ⟨line, rest, rfl, ?_, fun _ => hne, hend.imp_right fun h => ⟨h.1, ?_⟩⟩
      · rw [if_pos hdone, hlines]
        rfl
      · rw [← h.2]
        exact ChunkScan.depth_nonpos hdone
    · rw [if_neg hdone]
      have hlt : rest.length < k := by
        rw [← hk, List.length_append]
        have := List.length_pos_of_ne_nil hne
        omega
      obtain ⟨chunk, rest', rfl, hread, -, hclosed⟩ :=
        ih _ hlt rest (scan.line line) (n + 1) (text ++ line) rfl
      refine ⟨line ++ chunk, rest', (List.append_assoc _ _ _).symm, ?_, fun _ h => ?_, ?_⟩
      · have hcut' : cutLines (line ++ chunk) = cutLines line ++ cutLines chunk :=
          cutLines_append (.inr (hend.symm.imp And.left fun h => (List.append_eq_nil_iff.mp h).1))
        rw [hread, hcut', hlines, List.length_append, List.length_singleton, Nat.add_assoc,
          List.append_assoc]
      · exact hne (List.append_eq_nil_iff.mp h).1
      · rcases hend with hnil | ⟨-, hscan⟩
        · exact .inl (List.append_eq_nil_iff.mp hnil).2
        · refine hclosed.imp_right fun ⟨⟨ds, hds⟩, hdepth⟩ => ⟨⟨line ++ ds, ?_⟩, ?_⟩
          · rw [hds, List.append_assoc]
          · rwa [Nesting.after_append, ← hscan]

/-- **The first chunk of a text.** -/
theorem readChunk_ofText (cs : List Char) : ∃ chunk rest, cs = chunk ++ rest ∧
    readChunk [] (SourceLine.ofText cs) =
      .ok ⟨(cutLines chunk).length, chunk, SourceLine.ofText rest⟩ ∧
    (cs ≠ [] → chunk ≠ []) ∧ (rest = [] ∨ Ended chunk ∧ (Nesting.after {} chunk).depth ≤ 0) := by
  obtain ⟨chunk, rest, hcs, hread, hne, hclosed⟩ := readChunkFrom_ofText cs {} 0 []
  rw [Nat.zero_add, List.nil_append] at hread
  exact ⟨chunk, rest, hcs, hread, hne, hclosed⟩

end RuleMonitor
