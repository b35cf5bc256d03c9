import Mathlib.Logic.Function.Iterate
import RuleMonitor.Proofs.Script.Following
import RuleMonitor.Script.Chunk

/-!
# Reading chunk by chunk

A text is read chunk by chunk, each chunk with the number of lines before it, up to the first chunk that
cannot be read. This comes to the same as reading the whole text at once: the same items, the same
declarations, and the same failure.

* `Parser.Passes`: how the reading of a whole text comes by a part.
* `ChunkReader.next`: one more chunk; `ChunkReader.Boundary`: where a chunk ends.
* **`ChunkReader.chunks_eq_parse`**: the whole text.
-/

namespace RuleMonitor

open Routine Text Cut

namespace Parser

variable {t : Cut} {I : List Item} {b : Bool} {k : Site} {n m : Nat} {clean : Bool}

/-- Reads an item with its parentheses. -/
def oneItem : Routine Parser Unit := do
  openItem
  skip
  match ← item with
  | some found => modify fun p => { p with items := p.items ++ [found] }
  | none => pure ()
  close

theorem itemsFrom_succ (fuel : Nat) (p : Parser) : itemsFrom (fuel + 1) p =
    if p.cursor.rest.isEmpty then .ok () p
    else (oneItem >>= fun _ => skip >>= fun _ => itemsFrom fuel) p := by
  rw [itemsFrom, get_bind]
  split
  · rfl
  · simp only [oneItem, bind_assoc]
    refine congrFun (bind_congr fun _ => bind_congr fun _ => bind_congr fun found => ?_) p
    cases found with
    | none => rfl
    | some found =>
      dsimp only
      rw [bind_assoc]

theorem likewise_oneItem (ht : t.Fair) :
    Likewise t I b ⟨0, m + 1, true⟩ Eq (fun _ => ⟨0, m, false⟩) oneItem oneItem := by
  refine (likewise_openItem ht).next fun _ => (likewise_skip ht).next fun _ =>
    (likewise_item ht).next fun found => ?_
  cases found with
  | none => exact likewise_close ht
  | some found =>
    have hpush : Likewise t I b ⟨1, m, false⟩ Eq (fun _ => ⟨1, m, false⟩)
        (modify fun p => { p with items := p.items ++ [found] })
        (modify fun p => { p with items := p.items ++ [found] }) := fun p q h =>
      .ok ⟨rfl, h.declarations, (congrArg (· ++ [found]) h.items).trans (List.append_assoc _ _ _), h.draft,
        h.cursor⟩
    exact hpush.next fun _ => likewise_close ht

/-- The parser of the whole text is behind the part, which the parser of the part read to its end. -/
structure Beyond (t : Cut) (I : List Item) (p q : Parser) : Prop where
  declarations : p.declarations = q.declarations
  items : p.items = I ++ q.items
  cursor : p.cursor =
    ⟨t.before ++ t.chunk ++ t.after, t.lineOffset, byteSize (t.before ++ t.chunk), t.after⟩
  closed : Nesting.after {} t.chunk = {} ∨ t.after = [] ∧ Nesting.after {} t.chunk = ⟨0, .comment⟩

/-- The part is read alone, and as a part of the whole text: unless both readings fail, the reading of the
whole text goes on behind the part. -/
inductive Passes (t : Cut) (I : List Item) :
    EStateM.Result Failure Parser Unit → EStateM.Result Failure Parser Unit → Prop where
  | stops {e : Failure} {p q : Parser} (h : Stops t I p q) : Passes t I (.error e p) (.error e q)
  | goes {r : EStateM.Result Failure Parser Unit} (fuel : Nat) (p : Parser) {q : Parser}
      (hfuel : p.cursor.skipped.rest.length < fuel) (hr : r = (skip >>= fun _ => itemsFrom fuel) p)
      (h : Beyond t I p q) : Passes t I r (.ok () q)

theorem skip_bind {α : Type} (f : PUnit → Routine Parser α) (p : Parser) :
    (skip >>= f) p = f ⟨⟩ { p with cursor := p.cursor.skipped } := rfl

theorem itemsFrom_of_nil {fuel : Nat} {p : Parser} (hp : p.cursor.rest = []) :
    itemsFrom fuel p = .ok () p := by
  cases fuel with
  | zero => rfl
  | succ fuel => rw [itemsFrom_succ, hp, if_pos List.isEmpty_nil]

theorem skipped_of_nil {c : Cursor} (hc : c.rest = []) : c.skipped = c := by
  obtain ⟨source, lineOffset, position, rest⟩ := c
  obtain rfl : rest = [] := hc
  rfl

/-- At the end of the part, the cursor of the whole text is behind it. -/
theorem cursor_eq {c d : Cursor} (h : t.Meets k c d) (hd : d.rest = []) :
    c = ⟨t.before ++ t.chunk ++ t.after, t.lineOffset, byteSize (t.before ++ t.chunk), t.after⟩ := by
  obtain ⟨read, hread, hpos, -⟩ := h.reached
  rw [hd, List.append_nil] at hread
  obtain ⟨source, lineOffset, position, rest⟩ := c
  obtain rfl : source = _ := h.reads.whole
  obtain rfl : lineOffset = _ := h.reads.lines
  have hposition : position = _ := h.position
  have hrest : rest = _ := h.rest
  rw [hposition, hrest, hd, hpos, ← hread, byteSize_append]
  rfl

theorem Meets.passes {p q : Parser} (h : Meets t I b ⟨0, m, true⟩ p q) (hq : q.cursor.rest = []) :
    Passes t I (.ok () p) (.ok () q) := by
  have hafter : t.after = [] := (h.cursor.goes rfl).resolve_right (not_not.mpr hq)
  have hp : p.cursor.rest = [] := by rw [h.cursor.rest, hq, hafter, List.append_nil]
  obtain ⟨read, hread, -, hreached⟩ := h.cursor.reached
  rw [hq, List.append_nil] at hread
  refine .goes 1 p ?_ ?_ ⟨h.declarations, h.items, cursor_eq h.cursor hq, ?_⟩
  · rw [skipped_of_nil hp, hp]
    exact Nat.zero_lt_one
  · rw [skip_bind, skipped_of_nil hp, itemsFrom_of_nil hp]
  · rw [hread]
    exact hreached.imp_right fun h => ⟨hafter, h.2⟩

theorem passes_skip (ht : t.Fair) {p q : Parser} (h : Meets t I b ⟨0, m, clean⟩ p q) {fuel : Nat}
    (hfuel : p.cursor.skipped.rest.length < fuel) {g : Routine Parser Unit}
    (hg : ∀ q, q.cursor.rest = [] → g q = .ok () q)
    (hmeets : ∀ p q, Meets t I b ⟨0, m, true⟩ p q → p.cursor.rest.length < fuel →
      Passes t I (itemsFrom fuel p) (g q)) :
    Passes t I ((skip >>= fun _ => itemsFrom fuel) p) ((skip >>= fun _ => g) q) := by
  rw [skip_bind _ q]
  rcases h.cursor.skipped ht with hcursor | ⟨-, hnil, hchunk, hcursor⟩
  · exact hmeets _ _ ⟨h.declarations, h.items, h.draft, hcursor⟩ hfuel
  · rw [hg _ hnil]
    rw [h.cursor.reads.whole, h.cursor.reads.lines] at hcursor
    refine .goes fuel { p with cursor := ⟨t.before ++ t.chunk ++ t.after, t.lineOffset,
      byteSize (t.before ++ t.chunk), t.after⟩ } ?_ ?_ ⟨h.declarations, h.items, rfl, .inl hchunk⟩
    · rwa [← hcursor]
    · rw [skip_bind, skip_bind, hcursor]

theorem passes_itemsFrom (ht : t.Fair) (n : Nat) : ∀ {m fuel : Nat} {p q : Parser},
    Meets t I b ⟨0, m, true⟩ p q → p.cursor.rest.length < fuel → q.cursor.rest.length < n →
    Passes t I (itemsFrom fuel p) (itemsFrom n q) := by
  induction n with
  | zero => exact fun _ _ hn => absurd hn (Nat.not_lt_zero _)
  | succ n ih =>
    intro m fuel p q h hfuel hn
    by_cases hq : q.cursor.rest = []
    · have hafter : t.after = [] := (h.cursor.goes rfl).resolve_right (not_not.mpr hq)
      rw [itemsFrom_of_nil hq, itemsFrom_of_nil (by rw [h.cursor.rest, hq, hafter, List.append_nil])]
      exact h.passes hq
    · have hp : p.cursor.rest ≠ [] := fun hnil =>
        hq (List.append_eq_nil_iff.mp (h.cursor.rest.symm.trans hnil)).1
      obtain ⟨fuel, rfl⟩ := Nat.exists_eq_add_of_lt hfuel
      have hlen : p.cursor.rest.length = q.cursor.rest.length + t.after.length := by
        rw [h.cursor.rest, List.length_append]
      have hroom : Meets t I b ⟨0, q.cursor.rest.length + 1, true⟩ p q :=
        ⟨h.declarations, h.items, h.draft, h.cursor.reads, h.cursor.rest, h.cursor.position,
          h.cursor.reached, Nat.lt_succ_self _, h.cursor.clean⟩
      rw [itemsFrom_succ, itemsFrom_succ, if_neg (by simpa using hp), if_neg (by simpa using hq)]
      refine (likewise_oneItem ht hroom).bind (P := Passes t I) ?_ .stops
      rintro _ _ p₁ q₁ ⟨-, h₁⟩
      have hlt : q₁.cursor.rest.length < q.cursor.rest.length := h₁.cursor.room
      refine passes_skip ht h₁ ?_ (fun _ => itemsFrom_of_nil) fun p₂ q₂ h₂ hfuel₂ => ih h₂ hfuel₂ ?_
      · refine Nat.lt_of_le_of_lt p₁.cursor.length_skipped_le ?_
        rw [h₁.cursor.rest, List.length_append]
        omega
      · have hlt₂ : q₂.cursor.rest.length < q.cursor.rest.length := h₂.cursor.room
        omega

/-- **The reading of the whole text comes by a part** that it is in front of. -/
theorem passes_allItems (ht : t.Fair) {p q : Parser} (h : Meets t I b ⟨0, m, clean⟩ p q) {fuel : Nat}
    (hfuel : p.cursor.skipped.rest.length < fuel) :
    Passes t I ((skip >>= fun _ => itemsFrom fuel) p) (allItems q) := by
  refine passes_skip ht h hfuel (fun q hq => ?_) fun p q h hp => ?_
  · change itemsFrom (q.cursor.rest.length + 1) q = _
    exact itemsFrom_of_nil hq
  · exact passes_itemsFrom ht _ h hp (Nat.lt_succ_self _)

/-- The reading of all items by a parser comes to another one, between two items. -/
def ComesTo (p₀ p : Parser) : Prop :=
  ∃ fuel, p.cursor.skipped.rest.length < fuel ∧ allItems p₀ = (skip >>= fun _ => itemsFrom fuel) p

theorem comesTo_self (p : Parser) : ComesTo p p :=
  ⟨p.cursor.skipped.rest.length + 1, Nat.lt_succ_self _, rfl⟩

theorem ComesTo.eq_ok {p₀ p : Parser} (h : ComesTo p₀ p) (hp : p.cursor.rest = []) :
    allItems p₀ = .ok () p := by
  obtain ⟨fuel, -, hrun⟩ := h
  rw [hrun, skip_bind, skipped_of_nil hp, itemsFrom_of_nil hp]

/-- Either both readings stop in the part, or the reading of the whole text comes to the end of it. -/
theorem ComesTo.passes {p₀ p q : Parser} (h : ComesTo p₀ p) (ht : t.Fair)
    (hm : Meets t I b ⟨0, m, clean⟩ p q) :
    (∃ e p' q', allItems p₀ = .error e p' ∧ allItems q = .error e q' ∧ Stops t I p' q') ∨
      ∃ p' q', allItems q = .ok () q' ∧ ComesTo p₀ p' ∧ Beyond t I p' q' := by
  obtain ⟨fuel, hfuel, hrun⟩ := h
  have hpasses := passes_allItems ht hm hfuel
  rw [← hrun] at hpasses
  generalize hr : allItems p₀ = r, hr' : allItems q = r' at hpasses
  cases hpasses with
  | stops hstops => exact .inl ⟨_, _, _, rfl, rfl, hstops⟩
  | goes fuel p' hfuel hgoes hbeyond => exact .inr ⟨p', _, rfl, ⟨fuel, hfuel, hr.trans hgoes⟩, hbeyond⟩

end Parser

/-! ## Chunk by chunk -/

/-- A script that is read chunk by chunk. -/
structure ChunkReader where
  declarations : Declarations := {}
  /-- The items read, in order. -/
  items : List Item := []
  /-- What ended the reading. -/
  failure : Option Failure := none
  /-- The chunks read. -/
  text : List Char := []
  /-- The number of lines read. -/
  lines : Nat := 0
  /-- The lines to come. -/
  rest : List SourceLine

namespace ChunkReader

/-- The start of a text. -/
def start (cs : List Char) : ChunkReader :=
  { rest := SourceLine.ofText cs }

/-- Reads the items of one more chunk, unless a chunk could not be read. -/
def next (r : ChunkReader) : ChunkReader :=
  match r.failure, readChunk [] r.rest with
  | some _, _ => r
  | none, .error e => { r with failure := some e }
  | none, .ok chunk =>
    let parsed := r.declarations.parse chunk.text r.lines
    { declarations := parsed.declarations, items := r.items ++ parsed.items, failure := parsed.failure,
      text := r.text ++ chunk.text, lines := r.lines + chunk.lines, rest := chunk.rest }

/-- What the reading came to. -/
def parsed (r : ChunkReader) : Parsed :=
  ⟨r.items, r.declarations, r.failure⟩

/-- A text is cut between two items: nothing is open there, except for a comment at the end of the text,
and the reading of the whole text comes to this place, with some items and declarations. -/
structure Boundary (cs read rest : List Char) (items : List Item) (d : Declarations) : Prop where
  text : cs = read ++ rest
  closed : Nesting.after {} read = {} ∨ rest = [] ∧ Nesting.after {} read = ⟨0, .comment⟩
  comes : ∃ p : Parser, Parser.ComesTo { declarations := {}, cursor := .start cs 0 } p ∧
    p.cursor = ⟨cs, 0, byteSize read, rest⟩ ∧ p.items = items ∧ p.declarations = d

/-- No chunk failed so far, and the rest of the text comes next. -/
structure InStep (cs : List Char) (r : ChunkReader) (rest : List Char) : Prop where
  failure : r.failure = none
  source : r.rest = SourceLine.ofText rest
  lines : r.lines = (cutLines r.text).length
  ended : r.text = [] ∨ Ended r.text ∨ rest = []
  boundary : Boundary cs r.text rest r.items r.declarations

variable {cs rest : List Char} {r : ChunkReader}

theorem inStep_start (cs : List Char) : InStep cs (start cs) cs where
  failure := rfl
  source := rfl
  lines := rfl
  ended := .inl rfl
  boundary := ⟨rfl, .inl rfl, _, Parser.comesTo_self _, rfl, rfl, rfl⟩

theorem InStep.parsed_eq (h : InStep cs r []) : r.parsed = Declarations.parse {} cs 0 := by
  obtain ⟨p, hcomes, hcursor, hitems, hdecl⟩ := h.boundary.comes
  have hok := hcomes.eq_ok (by rw [hcursor])
  rw [Declarations.parse, hok, parsed, h.failure, ← hitems, ← hdecl]

theorem next_eq {chunk : Chunk} {parsed : Parsed} (hf : r.failure = none)
    (hread : readChunk [] r.rest = .ok chunk) (hparsed : r.declarations.parse chunk.text r.lines = parsed) :
    r.next =
      { declarations := parsed.declarations, items := r.items ++ parsed.items, failure := parsed.failure,
        text := r.text ++ chunk.text, lines := r.lines + chunk.lines, rest := chunk.rest } := by
  rw [next, hf, hread, ← hparsed]

theorem InStep.next_of_nil (h : InStep cs r []) : r.next = r := by
  have hparsed : r.declarations.parse [] r.lines = ⟨[], r.declarations, none⟩ := by
    rw [Declarations.parse, (Parser.comesTo_self _).eq_ok rfl]
  have hread : readChunk [] r.rest = .ok ⟨0, [], []⟩ := by
    rw [h.source]
    rfl
  rw [next_eq h.failure hread hparsed, List.append_nil, List.append_nil, Nat.add_zero]
  obtain ⟨d, items, failure, text, lines, source⟩ := r
  obtain rfl : failure = none := h.failure
  obtain rfl : source = [] := h.source
  rfl

/-- **One more chunk.** -/
theorem InStep.next (h : InStep cs r rest) (hrest : rest ≠ []) :
    r.next.failure ≠ none ∧ r.next.parsed = Declarations.parse {} cs 0 ∨
      ∃ rest', InStep cs r.next rest' ∧ (cutLines rest').length < (cutLines rest).length := by
  obtain ⟨chunk, rest', rfl, hread, hne, hclosed⟩ := readChunk_ofText rest
  rw [← h.source] at hread
  have hended : r.text = [] ∨ Ended r.text := by
    rcases h.ended with hnil | hended | hnil
    · exact .inl hnil
    · exact .inr hended
    · exact absurd hnil hrest
  have hplain : Nesting.after {} r.text = {} := h.boundary.closed.resolve_right fun ⟨hnil, _⟩ => hrest hnil
  obtain ⟨p, hcomes, hcursor, hitems, hdecl⟩ := h.boundary.comes
  have hcs : cs = r.text ++ chunk ++ rest' := by rw [h.boundary.text, List.append_assoc]
  have ht : Cut.Fair ⟨r.text, chunk, rest', 0⟩ := ⟨hended, hclosed⟩
  have hmeets : Parser.Meets ⟨r.text, chunk, rest', 0⟩ r.items false ⟨0, chunk.length + 1, false⟩ p
      { declarations := r.declarations, cursor := .start chunk r.lines } := by
    refine ⟨hdecl, by rw [hitems, List.append_nil], nofun, ?_⟩
    rw [hcursor]
    exact ⟨⟨hcs, rfl, rfl, h.lines.trans (Nat.zero_add _).symm⟩, rfl, rfl, ⟨[], rfl, rfl, .inl rfl⟩,
      Nat.lt_succ_self _, nofun⟩
  rcases hcomes.passes ht hmeets with ⟨e, p', q', hwhole, hpart, hstops⟩ | ⟨p', q', hpart, hcomes', hbeyond⟩
  · have hparsed : r.declarations.parse chunk r.lines = ⟨q'.items, q'.declarations, some e⟩ := by
      rw [Declarations.parse, hpart]
    have hparsed' : Declarations.parse {} cs 0 = ⟨r.items ++ q'.items, q'.declarations, some e⟩ := by
      rw [Declarations.parse, hwhole, ← hstops.items, ← hstops.declarations]
    rw [next_eq h.failure hread hparsed, hparsed']
    exact .inl ⟨nofun, rfl⟩
  · have hparsed : r.declarations.parse chunk r.lines = ⟨q'.items, q'.declarations, none⟩ := by
      rw [Declarations.parse, hpart]
    have hlines : cutLines (chunk ++ rest') = cutLines chunk ++ cutLines rest' :=
      cutLines_append (.inr (hclosed.symm.imp_left And.left))
    refine .inr ⟨rest', ?_, ?_⟩
    · rw [next_eq h.failure hread hparsed]
      refine ⟨rfl, rfl, ?_, ?_, ?_, ?_, p', hcomes', ?_, hbeyond.items, hbeyond.declarations⟩
      · change r.lines + (cutLines chunk).length = (cutLines (r.text ++ chunk)).length
        rw [cutLines_append (hended.imp_right .inl), List.length_append, h.lines]
      · rcases hclosed with hnil | ⟨⟨ds, hds⟩, -⟩
        · exact .inr (.inr hnil)
        · exact .inr (.inl ⟨r.text ++ ds, by rw [hds, List.append_assoc]⟩)
      · exact hcs
      · change Nesting.after {} (r.text ++ chunk) = {} ∨ _ ∧ Nesting.after {} (r.text ++ chunk) = _
        rw [Nesting.after_append, hplain]
        exact hbeyond.closed
      · rw [hbeyond.cursor, hcs]
    · obtain ⟨line, lines, -, hcut, -⟩ := cutLines_eq_cons (hne hrest)
      rw [hlines, List.length_append, hcut, List.length_cons]
      omega

theorem next_of_failure (h : r.failure ≠ none) : r.next = r := by
  rw [ChunkReader.next]
  cases hf : r.failure with
  | none => exact absurd hf h
  | some e => rfl

/-- After some chunks, the text was read as far, unless a chunk could not be read. -/
theorem inStep_iterate (cs : List Char) (n : Nat) :
    ((ChunkReader.next^[n] (start cs)).failure ≠ none ∧
        (ChunkReader.next^[n] (start cs)).parsed = Declarations.parse {} cs 0) ∨
      ∃ rest, InStep cs (ChunkReader.next^[n] (start cs)) rest ∧
        (rest = [] ∨ (cutLines rest).length + n ≤ (cutLines cs).length) := by
  induction n with
  | zero => exact .inr ⟨cs, inStep_start cs, .inr (Nat.le_refl _)⟩
  | succ n ih =>
    rw [Function.iterate_succ_apply']
    rcases ih with ⟨hfailure, hparsed⟩ | ⟨rest, hstep, hlines⟩
    · rw [next_of_failure hfailure]
      exact .inl ⟨hfailure, hparsed⟩
    by_cases hrest : rest = []
    · subst hrest
      rw [hstep.next_of_nil]
      exact .inr ⟨[], hstep, .inl rfl⟩
    · refine (hstep.next hrest).imp_right fun ⟨rest', hstep', hlt⟩ => ⟨rest', hstep', .inr ?_⟩
      have hle := hlines.resolve_left hrest
      omega

/-- **Reading chunk by chunk** is reading the whole text: as many chunks as the text has lines come to the
same items, declarations and failure, and before a failure, each chunk ends between two items. -/
theorem chunks_eq_parse (cs : List Char) :
    (∀ n, (cutLines cs).length ≤ n → (ChunkReader.next^[n] (start cs)).parsed = Declarations.parse {} cs 0) ∧
      ∀ n, (ChunkReader.next^[n] (start cs)).failure = none → ∃ rest,
        (ChunkReader.next^[n] (start cs)).rest = SourceLine.ofText rest ∧
        Boundary cs (ChunkReader.next^[n] (start cs)).text rest (ChunkReader.next^[n] (start cs)).items
          (ChunkReader.next^[n] (start cs)).declarations := by
  refine ⟨fun n hn => ?_, fun n hf => ?_⟩
  · rcases inStep_iterate cs n with ⟨-, hparsed⟩ | ⟨rest, hstep, hlines⟩
    · exact hparsed
    · have hrest : rest = [] := by
        by_contra hne
        obtain ⟨line, lines, -, hcut, -⟩ := cutLines_eq_cons hne
        have hle := hlines.resolve_left hne
        rw [hcut, List.length_cons] at hle
        omega
      exact (hrest ▸ hstep).parsed_eq
  · rcases inStep_iterate cs n with ⟨hfailure, -⟩ | ⟨rest, hstep, -⟩
    · exact absurd hf hfailure
    · exact ⟨rest, hstep.source, hstep.boundary⟩

namespace Sample

/-- An item with a parenthesis in the comment behind it, and an item that is never closed. -/
def script : List Char :=
  "(check) ; (\n(+ visitor".toList

end Sample

theorem chunks_eq_parse_sample :
    (ChunkReader.next^[2] (start Sample.script)).parsed = Declarations.parse {} Sample.script 0 ∧
      ∃ rest, (ChunkReader.next^[1] (start Sample.script)).rest = SourceLine.ofText rest ∧
        Boundary Sample.script (ChunkReader.next^[1] (start Sample.script)).text rest
          (ChunkReader.next^[1] (start Sample.script)).items
          (ChunkReader.next^[1] (start Sample.script)).declarations :=
  ⟨(chunks_eq_parse Sample.script).1 2 (by decide +kernel),
    (chunks_eq_parse Sample.script).2 1 (by decide +kernel)⟩

end ChunkReader

end RuleMonitor
