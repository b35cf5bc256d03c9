import RuleMonitor.Proofs.Routines
import RuleMonitor.Proofs.Script.Places

/-!
# Reading a part alongside the whole

The reading of a text comes by the parts that the text is cut into. While it is in the middle part, a
reading of the part alone does the same: its cursor has the same characters before it, up to the end of
the part, and reads the same words, with the same places.

* `Routine.Alongside`: two computations that come to the same.
* `Cut.Site`, `Cut.Meets`: the cursors of both readings, between the parentheses of the part.
* `Cut.moves_skip`, `Cut.moves_name`, …: steps of both cursors.
-/

namespace RuleMonitor

open Script Text

namespace Routine

variable {σ τ α β : Type}

/-- Two ends of computations: both succeed, or both fail with the same failure. -/
inductive Agree (post : α → α → σ → σ → Prop) (fail : σ → σ → Prop) :
    EStateM.Result Failure σ α → EStateM.Result Failure σ α → Prop where
  | ok {a b : α} {s t : σ} : post a b s t → Agree post fail (.ok a s) (.ok b t)
  | error {e : Failure} {s t : σ} : fail s t → Agree post fail (.error e s) (.error e t)

/-- From states that are related, two computations come to the same. -/
def Alongside (pre : σ → σ → Prop) (post : α → α → σ → σ → Prop) (fail : σ → σ → Prop)
    (x y : Routine σ α) : Prop :=
  ∀ ⦃s t⦄, pre s t → Agree post fail (x s) (y t)

variable {pre : σ → σ → Prop} {post : α → α → σ → σ → Prop} {fail : σ → σ → Prop} {x y : Routine σ α}

theorem Agree.imp {r r' : EStateM.Result Failure σ α} {post' : α → α → σ → σ → Prop}
    {fail' : σ → σ → Prop} (h : Agree post fail r r') (hp : ∀ {a b s t}, post a b s t → post' a b s t)
    (hf : ∀ {s t}, fail s t → fail' s t) : Agree post' fail' r r' := by
  cases h with
  | ok h => exact .ok (hp h)
  | error h => exact .error (hf h)

theorem Agree.bind {s t : σ} {x y : Routine σ α} {f g : α → Routine σ β}
    {P : EStateM.Result Failure σ β → EStateM.Result Failure σ β → Prop}
    (h : Agree post fail (x s) (y t)) (hok : ∀ {a b s t}, post a b s t → P (f a s) (g b t))
    (herror : ∀ {e s t}, fail s t → P (.error e s) (.error e t)) : P ((x >>= f) s) ((y >>= g) t) := by
  generalize hs : x s = r, ht : y t = r' at h
  cases h with
  | ok h =>
    rw [bind_ok hs, bind_ok ht]
    exact hok h
  | error h =>
    rw [bind_error hs, bind_error ht]
    exact herror h

theorem Alongside.bind {M : α → α → σ → σ → Prop} {post : β → β → σ → σ → Prop}
    {f g : α → Routine σ β} (hx : Alongside pre M fail x y)
    (hf : ∀ a b, Alongside (M a b) post fail (f a) (g b)) :
    Alongside pre post fail (x >>= f) (y >>= g) :=
  fun _ _ h => (hx h).bind (fun hm => hf _ _ hm) .error

theorem Alongside.attempt {answered : Except Failure α → Except Failure α → σ → σ → Prop}
    {fail' : σ → σ → Prop} (hx : Alongside pre post fail x y)
    (hok : ∀ {a b s t}, post a b s t → answered (.ok a) (.ok b) s t)
    (herror : ∀ {e s t}, fail s t → answered (.error e) (.error e) s t) :
    Alongside pre answered fail' (Routine.attempt x) (Routine.attempt y) := by
  intro s t h
  have hxy := hx h
  generalize hs : x s = r, ht : y t = r' at hxy
  cases hxy with
  | ok h =>
    rw [attempt_ok hs, attempt_ok ht]
    exact .ok (hok h)
  | error h =>
    rw [attempt_error hs, attempt_error ht]
    exact .ok (herror h)

theorem Agree.onPart {get : σ → τ} {set : τ → σ → σ} {x y : Routine τ α} {s t : σ}
    {postPart : α → α → τ → τ → Prop} {failPart : τ → τ → Prop}
    (h : Agree postPart failPart (x (get s)) (y (get t)))
    (hok : ∀ {a b u v}, postPart a b u v → post a b (set u s) (set v t))
    (herror : ∀ {u v}, failPart u v → fail (set u s) (set v t)) :
    Agree post fail (onPart get set x s) (onPart get set y t) := by
  generalize hs : x (get s) = r, ht : y (get t) = r' at h
  cases h with
  | ok h =>
    rw [onPart_ok hs, onPart_ok ht]
    exact .ok (hok h)
  | error h =>
    rw [onPart_error hs, onPart_error ht]
    exact .error (herror h)

end Routine

open Routine

/-! ## Texts that go on -/

/-- What closes the parentheses of the text comes before a word can go past its end. -/
theorem Script.after?_append_of_mem {text r : List Char} (ht : ')' ∉ text) (B : List Char)
    (h : B = [] ∨ ')' ∈ r) : after? text (r ++ B) = (after? text r).map (· ++ B) := by
  induction text generalizing r with
  | nil => rfl
  | cons x text ih =>
    rw [List.mem_cons, not_or] at ht
    cases r with
    | nil =>
      obtain rfl := h.resolve_right List.not_mem_nil
      rfl
    | cons c r =>
      rw [List.cons_append, after?, after?]
      by_cases hx : x = c
      · rw [if_pos hx, if_pos hx]
        refine ih ht.2 (h.imp_right fun hm => (List.mem_cons.mp hm).resolve_left fun e => ?_)
        exact ht.1 (e.trans hx.symm)
      · rw [if_neg hx, if_neg hx]
        rfl

namespace Cursor

/-- What a text comes to when blanks and comments are skipped: the end of the text, in a comment or not,
or what comes next. -/
structure Skips (depth : Int) (comment : Bool) (cs : List Char) (ends : Bool) (read rest : List Char) :
    Prop where
  text : cs = read ++ rest
  nesting : Nesting.after ⟨depth, if comment then .comment else .plain⟩ read =
    ⟨depth, if ends then .comment else .plain⟩
  blanks : ∀ position B, afterBlanks comment position (cs ++ B) =
    afterBlanks ends (position + byteSize read) (rest ++ B)
  rest : rest = [] ∨ ends = false ∧ ∃ x xs, rest = x :: xs ∧ isBlank x = false ∧ x ≠ ';'

theorem Skips.cons {depth : Int} {comment next ends : Bool} {c : Char} {cs read rest : List Char}
    (h : Skips depth next cs ends read rest)
    (hstep : Nesting.step ⟨depth, if comment then .comment else .plain⟩ c =
      ⟨depth, if next then .comment else .plain⟩)
    (hblanks : ∀ position B, afterBlanks comment position (c :: cs ++ B) =
      afterBlanks next (position + c.utf8Size) (cs ++ B)) :
    Skips depth comment (c :: cs) ends (c :: read) rest where
  text := by rw [h.text, List.cons_append]
  nesting := by rw [Nesting.after_cons, hstep, h.nesting]
  blanks position B := by rw [hblanks, h.blanks, byteSize_cons, Nat.add_assoc]
  rest := h.rest

theorem exists_skips (depth : Int) (cs : List Char) :
    ∀ comment, ∃ ends read rest, Skips depth comment cs ends read rest := by
  induction cs with
  | nil => exact fun comment => ⟨comment, [], [], rfl, rfl, fun _ _ => rfl, .inl rfl⟩
  | cons c cs ih =>
    rintro (_ | _)
    · by_cases hb : isBlank c = true
      · obtain ⟨ends, read, rest, h⟩ := ih false
        refine ⟨ends, c :: read, rest, h.cons (Nesting.step_plain ⟨?_, ?_, ?_, ?_⟩) fun _ _ => if_pos hb⟩ <;>
          (rintro rfl; revert hb; decide)
      by_cases hc : c = ';'
      · subst hc
        obtain ⟨ends, read, rest, h⟩ := ih true
        exact ⟨ends, ';' :: read, rest, h.cons rfl fun _ _ => rfl⟩
      · rw [Bool.not_eq_true] at hb
        exact ⟨false, [], c :: cs, rfl, rfl, fun _ _ => rfl, .inr ⟨rfl, c, cs, rfl, hb, hc⟩⟩
    · obtain ⟨ends, read, rest, h⟩ := ih (c ≠ '\n')
      refine ⟨ends, c :: read, rest, h.cons ?_ fun _ _ => rfl⟩
      by_cases hc : c = '\n' <;> simp [Nesting.step, hc]

theorem Skips.settled {depth : Int} {comment ends : Bool} {cs read rest : List Char}
    (h : Skips depth comment cs ends read rest) {B : List Char} (hB : B = [] ∨ rest ≠ []) (position : Nat) :
    afterBlanks ends position (rest ++ B) = (position, rest ++ B) := by
  rcases h.rest with rfl | ⟨rfl, x, xs, rfl, hb, hc⟩
  · obtain rfl := hB.resolve_right fun h => h rfl
    rfl
  · rw [List.cons_append, afterBlanks, if_neg (Bool.not_eq_true _ ▸ hb), if_neg hc]

theorem advance_advance (c : Cursor) (read next rest rest' : List Char) :
    (c.advance read rest).advance next rest' = c.advance (read ++ next) rest' := by
  simp only [advance, byteSize_append, Nat.add_assoc]

/-- The cursor after blanks and comments. -/
def skipped (c : Cursor) : Cursor :=
  let (position, rest) := afterBlanks false c.position c.rest
  { c with position, rest }

theorem skipped_eq {c : Cursor} {read rest : List Char}
    (h : afterBlanks false c.position c.rest = (c.position + byteSize read, rest)) :
    c.skipped = c.advance read rest := by
  rw [skipped, h]
  rfl

theorem length_skipped_le (c : Cursor) : c.skipped.rest.length ≤ c.rest.length := by
  obtain ⟨ends, read, rest, h⟩ := exists_skips 0 c.rest false
  have hblanks := h.blanks c.position []
  rw [h.settled (.inl rfl), List.append_nil, List.append_nil] at hblanks
  rw [skipped_eq hblanks, h.text, List.length_append]
  exact Nat.le_add_left _ _

theorem skipped_congr {c : Cursor} {position : Nat} {rest : List Char}
    (h : afterBlanks false c.position c.rest = afterBlanks false position rest) :
    c.skipped = ({ c with position, rest } : Cursor).skipped := by
  rw [skipped, h]
  rfl

end Cursor

theorem Nesting.isOrdinary_of_isNameChar {c : Char} (h : isNameChar c = true) : IsOrdinary c := by
  refine ⟨?_, ?_, ?_, ?_⟩ <;> (rintro rfl; revert h; decide)

/-! ## Both cursors -/

namespace Cut

/-- Where the readings are. -/
structure Site where
  /-- The number of parentheses that are open. -/
  depth : Nat
  /-- A bound of what is left of the part. -/
  room : Nat
  /-- The blanks before the cursors were skipped. -/
  clean : Bool

/-- The site after a word that may have been read. -/
def Site.past (k : Site) (read : Bool) : Site :=
  bif read then { k with room := k.room - 1, clean := false } else k

variable {t : Cut} {k : Site} {c d : Cursor}

/-- The cursors read the whole text and its middle part. -/
structure Reads (t : Cut) (c d : Cursor) : Prop where
  whole : c.source = t.before ++ t.chunk ++ t.after
  part : d.source = t.chunk
  lines : c.lineOffset = t.lineOffset
  linesPart : d.lineOffset = t.lineOffset + (cutLines t.before).length

/-- The cursor of the whole text and the one of the part are at the same place. -/
structure Meets (t : Cut) (k : Site) (c d : Cursor) : Prop where
  reads : t.Reads c d
  rest : c.rest = d.rest ++ t.after
  position : c.position = byteSize t.before + d.position
  reached : ∃ read, t.chunk = read ++ d.rest ∧ d.position = byteSize read ∧
    (Nesting.after {} read = ⟨k.depth, .plain⟩ ∨
      d.rest = [] ∧ Nesting.after {} read = ⟨k.depth, .comment⟩)
  room : d.rest.length < k.room
  clean : k.clean = true → t.after = [] ∨ ∃ x xs, d.rest = x :: xs ∧ isBlank x = false

namespace Meets

theorem place (h : t.Meets k c d) (hk : k.clean = true) : t.Place c.position d.position := by
  refine ⟨h.position, (h.clean hk).imp_right ?_⟩
  rintro ⟨x, xs, hx, hb⟩
  obtain ⟨read, hread, hpos, -⟩ := h.reached
  refine ⟨read, x, xs, by rw [hread, hx], hpos, ?_, ?_⟩ <;> (rintro rfl; revert hb; decide)

/-- Between parentheses, the part goes on up to where they are closed. -/
theorem closing (ht : t.Fair) (h : t.Meets k c d) (hk : 0 < k.depth) :
    t.after = [] ∨ (Nesting.after ⟨k.depth, .plain⟩ d.rest).depth ≤ 0 := by
  refine ht.chunk.imp_right fun ⟨_, hdepth⟩ => ?_
  obtain ⟨read, hread, -, hreached⟩ := h.reached
  rw [hread, Nesting.after_append] at hdepth
  rcases hreached with hafter | ⟨hnil, hafter⟩
  · rwa [hafter] at hdepth
  · rw [hafter, hnil, Nesting.after_nil] at hdepth
    have hle : (k.depth : Int) ≤ 0 := hdepth
    omega

theorem closing_mem (ht : t.Fair) (h : t.Meets k c d) (hk : 0 < k.depth) :
    t.after = [] ∨ ')' ∈ d.rest :=
  (h.closing ht hk).imp_right fun hc => Nesting.closing_mem (Int.natCast_pos.mpr hk) hc

theorem goes (h : t.Meets k c d) (hk : k.clean = true) : t.after = [] ∨ d.rest ≠ [] :=
  (h.clean hk).imp_right fun ⟨x, xs, hx, _⟩ => hx ▸ List.cons_ne_nil x xs

theorem weaken {k' : Site} (h : t.Meets k c d) (hdepth : k.depth = k'.depth)
    (hroom : k.room ≤ k'.room) (hclean : k'.clean = true → k.clean = true) : t.Meets k' c d where
  reads := h.reads
  rest := h.rest
  position := h.position
  reached := hdepth ▸ h.reached
  room := Nat.lt_of_lt_of_le h.room hroom
  clean hk := h.clean (hclean hk)

theorem advance {k' : Site} (h : t.Meets k c d) {read rest : List Char} (hrest : d.rest = read ++ rest)
    (hafter : Nesting.after ⟨k.depth, .plain⟩ read = ⟨k'.depth, .plain⟩ ∨
      rest = [] ∧ Nesting.after ⟨k.depth, .plain⟩ read = ⟨k'.depth, .comment⟩)
    (hroom : k.room ≤ k'.room + read.length)
    (hclean : k'.clean = true → t.after = [] ∨ ∃ x xs, rest = x :: xs ∧ isBlank x = false) :
    t.Meets k' (c.advance read (rest ++ t.after)) (d.advance read rest) where
  reads := ⟨h.reads.whole, h.reads.part, h.reads.lines, h.reads.linesPart⟩
  rest := rfl
  position := by
    change c.position + byteSize read = byteSize t.before + (d.position + byteSize read)
    rw [h.position, Nat.add_assoc]
  reached := by
    obtain ⟨first, hfirst, hpos, hreached⟩ := h.reached
    refine ⟨first ++ read, by rw [hfirst, hrest, List.append_assoc]; rfl, ?_, ?_⟩
    · rw [byteSize_append, ← hpos]
      rfl
    · rcases hreached with hplain | ⟨hnil, hcomment⟩
      · rw [Nesting.after_append, hplain]
        exact hafter
      · -- In a comment at the end of the part, there is nothing more to read.
        obtain ⟨rfl, rfl⟩ := List.append_eq_nil_iff.mp (hrest.symm.trans hnil)
        rw [List.append_nil, hcomment]
        simp only [Nesting.after_nil, Nesting.mk.injEq, reduceCtorEq, and_true, and_false, or_false] at hafter
        rw [hafter]
        exact .inr ⟨rfl, rfl⟩
  room := by
    have hlt := h.room
    rw [hrest, List.length_append] at hlt
    change rest.length < k'.room
    omega
  clean := hclean

/-- Unless they come to the end of the part, both cursors skip the same. -/
theorem skipped (ht : t.Fair) (h : t.Meets k c d) :
    t.Meets { k with clean := true } c.skipped d.skipped ∨
      t.after ≠ [] ∧ d.skipped.rest = [] ∧ Nesting.after {} t.chunk = ⟨k.depth, .plain⟩ ∧
        c.skipped = ({ c with position := byteSize (t.before ++ t.chunk), rest := t.after } : Cursor).skipped := by
  obtain ⟨first, hfirst, hpos, hreached⟩ := h.reached
  -- A part that is not the last one does not end in a comment.
  have hzone : t.after = [] ∨ (Nesting.after {} t.chunk).zone ≠ .comment :=
    ht.chunk.imp_right fun ⟨hended, _⟩ => Nesting.zone_after hended
  obtain ⟨ends, read, rest, hs⟩ := Cursor.exists_skips k.depth d.rest false
  have hd : d.skipped = d.advance read rest := by
    have hblanks := hs.blanks d.position []
    rw [hs.settled (.inl rfl), List.append_nil, List.append_nil] at hblanks
    exact Cursor.skipped_eq hblanks
  have hblanks := hs.blanks c.position t.after
  rw [← h.rest] at hblanks
  by_cases hgoes : t.after = [] ∨ rest ≠ []
  · rw [hs.settled hgoes] at hblanks
    rw [hd, Cursor.skipped_eq hblanks]
    refine .inl (h.advance hs.text ?_ (Nat.le_add_right _ _) fun _ => hgoes.imp_right fun hne => ?_)
    · have hnest := hs.nesting
      cases ends with
      | true => exact .inr ⟨hs.rest.resolve_right nofun, hnest⟩
      | false => exact .inl hnest
    · obtain ⟨-, x, xs, hx, hb, -⟩ := hs.rest.resolve_left hne
      exact ⟨x, xs, hx, hb⟩
  · rw [not_or, not_not] at hgoes
    obtain ⟨hafter, rfl⟩ := hgoes
    have hchunk : t.chunk = first ++ read := by rw [hfirst, hs.text, List.append_nil]
    have hend := hzone.resolve_left hafter
    rcases hreached with hplain | ⟨hnil, hcomment⟩
    · have hnest : Nesting.after {} t.chunk = ⟨k.depth, if ends then .comment else .plain⟩ := by
        rw [hchunk, Nesting.after_append, hplain]
        exact hs.nesting
      cases ends with
      | true => exact absurd (congrArg Nesting.zone hnest) hend
      | false =>
        refine .inr ⟨hafter, by rw [hd]; rfl, hnest, Cursor.skipped_congr ?_⟩
        rw [hblanks, h.position, hpos, hchunk, byteSize_append, byteSize_append, Nat.add_assoc,
          List.nil_append]
    · rw [hfirst, hnil, List.append_nil, hcomment] at hend
      exact absurd rfl hend

end Meets

end Cut

end RuleMonitor
