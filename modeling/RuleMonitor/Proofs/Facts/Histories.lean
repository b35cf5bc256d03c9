import RuleMonitor.Proofs.Facts.Recording
import RuleMonitor.Proofs.Facts.Rosters

/-!
# Rosters after calls in a row

Whatever is added, removed and updated, and whatever fails, a roster that was empty at first stays
consistent: its two indices agree, no identity is given out twice, a context keeps its name while it
lives, and the changes that were answered lead an empty store to the facts of the snapshot.

* `Roster.Call`, `Roster.run`: calls one after the other, with the changes of those that succeed.
* `Roster.Listed`: live names are found; **`Roster.Listed.moves`**.
* `Roster.Moves.added_eq`, `Roster.Moves.kept`: identities and names.
* `Roster.Chronicle`: what a log tells of a roster; **`Roster.run_chronicle`**.
-/

namespace RuleMonitor

open Std (ExtTreeMap)

namespace Roster

/-- A call of an operation. -/
inductive Call where
  | add (pattern : String) (attributes : Attributes)
  | remove (id : Nat)
  /-- Overwrites one attribute. -/
  | update (id : Nat) (name value : String)
  /-- Overwrites some attributes. -/
  | updateAll (id : Nat) (attributes : Attributes)

/-- What is called. -/
def Call.action : Call → Routine Roster Change
  | .add pattern attributes => Roster.add pattern attributes
  | .remove id => Roster.remove id
  | .update id name value => Roster.update id ((∅ : Attributes).insert name value)
  | .updateAll id attributes => Roster.update id attributes

/-- Calls one after the other: the changes that those that succeed answer, and the roster that is left. -/
def run (r : Roster) : List Call → List Change × Roster
  | [] => ([], r)
  | x :: xs =>
    match x.action r with
    | .ok c r' => (c :: (r'.run xs).1, (r'.run xs).2)
    | .error _ r' => r'.run xs

variable {r r' : Roster} {P Q : Pools} {c d : Change} {x : Call} {xs : List Call}

theorem Call.ok (h : x.action r = .ok c r') : r.Moves c r' := by
  cases x with
  | add p a => exact ((operates_add p a).ok h).1
  | remove id => exact ((operates_remove id).ok h).1
  | update id name value => exact ((operates_update id _).ok h).1
  | updateAll id a => exact ((operates_update id a).ok h).1

/-- **A call that fails** changes nothing. -/
theorem Call.error {e : Failure} (h : x.action r = .error e r') : r' = r := by
  cases x with
  | add p a => exact ((operates_add p a).error h).1
  | remove id => exact ((operates_remove id).error h).1
  | update id name value => exact ((operates_update id _).error h).1
  | updateAll id a => exact ((operates_update id a).error h).1

/-- What holds of an empty roster, and is kept by moves, holds after calls. -/
theorem run_induct {motive : Roster → List Change → Roster → Prop} (nil : ∀ r, motive r [] r)
    (cons : ∀ {r c r' log last}, r.Moves c r' → motive r' log last → motive r (c :: log) last)
    (r : Roster) (xs : List Call) : motive r (r.run xs).1 (r.run xs).2 := by
  induction xs generalizing r with
  | nil => exact nil r
  | cons x xs ih =>
    unfold run
    cases hx : x.action r with
    | ok c r' => exact cons (Call.ok hx) (ih r')
    | error e r' =>
      obtain rfl := Call.error hx
      exact ih r'

/-! ## Names -/

/-- Live contexts are found by their names. -/
def Listed (r : Roster) : Prop :=
  ∀ id p (c : Context) n, r.live[id]? = some (p, c) → c.attribute? "name" = some n →
    r.byName? n = some id

theorem listed_empty : Listed {} := fun id p c n h => by
  rw [ExtTreeMap.getElem?_empty] at h
  cases h

/-- **A move of the roster** keeps live contexts listed. -/
theorem Listed.moves (h : r.Listed) (hm : r.Moves c r') : r'.Listed := by
  intro k q e n hk hn
  cases hm with
  | @addition p d names hid hnew hnames =>
    change names[n]? = some k
    dsimp only at hk
    rw [Map.getElem?_insert] at hk
    rw [hnames]
    split_ifs at hk with he
    · cases hk
      rw [if_pos hn, he]
    · have hfound := h k q e n hk hn
      have hne : d.attribute? "name" ≠ some n := fun hd => nomatch (hnew n hd).symm.trans hfound
      rw [if_neg hne]
      exact hfound
  | @deletion id p d names hd hnames =>
    change names[n]? = some k
    dsimp only at hk
    rw [Map.getElem?_erase] at hk
    split_ifs at hk with he
    have hfound := h k q e n hk hn
    have hne : d.attribute? "name" ≠ some n := fun hname =>
      he (Option.some.inj ((h id p d n hd hname).symm.trans hfound))
    rw [hnames, if_neg hne]
    exact hfound
  | @update id p old new hold hid hname =>
    dsimp only at hk
    rw [Map.getElem?_insert] at hk
    split_ifs at hk with he
    · cases hk
      exact he ▸ h id q old n hold (hname ▸ hn)
    · exact h k q e n hk hn

/-! ## Identities -/

/-- A context that is live was so with its name, if its identity was given out. -/
theorem Moves.kept (h : r.Moves c r') {id : Nat} {p : String} {new : Context}
    (hlive : r'.live[id]? = some (p, new)) (hid : id < r.next) :
    ∃ old, r.live[id]? = some (p, old) ∧ new.attribute? "name" = old.attribute? "name" := by
  cases h with
  | @addition q d names hd hnew hnames =>
    dsimp only at hlive
    rw [Map.getElem?_insert] at hlive
    split_ifs at hlive with he
    · omega
    · exact ⟨new, hlive, rfl⟩
  | @deletion k q d names hd hnames =>
    dsimp only at hlive
    rw [Map.getElem?_erase] at hlive
    split_ifs at hlive
    exact ⟨new, hlive, rfl⟩
  | @update k q old d hold hd hname =>
    dsimp only at hlive
    rw [Map.getElem?_insert] at hlive
    split_ifs at hlive with he
    · cases hlive
      exact ⟨old, he ▸ hold, hname⟩
    · exact ⟨new, hlive, rfl⟩

/-- **Identities** are given out in order, and none is left out. -/
theorem run_added (r : Roster) (xs : List Call) : r.next ≤ (r.run xs).2.next ∧
    Change.added (r.run xs).1 = List.Ico r.next (r.run xs).2.next := by
  refine run_induct (motive := fun r log last =>
    r.next ≤ last.next ∧ Change.added log = List.Ico r.next last.next)
    (fun r => ⟨Nat.le_refl _, List.Ico.self_empty.symm⟩) ?_ r xs
  intro r c r' log last hm ih
  obtain ⟨hle, heq⟩ := hm.added_eq
  refine ⟨hle.trans ih.1, ?_⟩
  rw [← List.singleton_append, Change.added, List.filter_append, List.map_append]
  change Change.added [c] ++ Change.added log = _
  rw [heq, ih.2, List.Ico.append_consecutive hle ih.1]

/-- **A context keeps its name** while it lives. -/
theorem run_kept (r : Roster) (xs : List Call) {id : Nat} {p : String} {new : Context}
    (hlive : (r.run xs).2.live[id]? = some (p, new)) (hid : id < r.next) :
    ∃ old, r.live[id]? = some (p, old) ∧ new.attribute? "name" = old.attribute? "name" := by
  refine run_induct (motive := fun r _ last => ∀ new, last.live[id]? = some (p, new) → id < r.next →
    ∃ old, r.live[id]? = some (p, old) ∧ new.attribute? "name" = old.attribute? "name")
    (fun r new h _ => ⟨new, h, rfl⟩) ?_ r xs new hlive hid
  intro r c r' log last hm ih new hnew hid
  obtain ⟨mid, hmid, hname⟩ := ih new hnew (Nat.lt_of_lt_of_le hid hm.added_eq.1)
  obtain ⟨old, hold, hname'⟩ := hm.kept hmid hid
  exact ⟨old, hold, hname.trans hname'⟩

/-! ## Logs -/

/-- **A log leads** the pools of a roster to those of the roster that is left. -/
theorem run_leads (r : Roster) (xs : List Call) (h : r.Holds P) :
    ∃ Q, P.after? (r.run xs).1 = some Q ∧ (r.run xs).2.Holds Q := by
  refine run_induct (motive := fun r log last => ∀ P, r.Holds P →
    ∃ Q, P.after? log = some Q ∧ last.Holds Q) (fun r P h => ⟨P, rfl, h⟩) ?_ r xs P h
  intro r c r' log last hm ih P h
  obtain ⟨hvalid, hnext⟩ := h.moves hm
  obtain ⟨Q, hQ, hlast⟩ := ih _ hnext
  exact ⟨Q, Pools.after?_cons_eq_some.mpr ⟨hvalid, hQ⟩, hlast⟩

theorem run_indexed (r : Roster) (xs : List Call) (h : r.Holds P) (hn : r.Named) (hl : r.Listed) :
    (r.run xs).2.Named ∧ (r.run xs).2.Listed := by
  refine run_induct (motive := fun r _ last => ∀ P, r.Holds P → r.Named → r.Listed →
    last.Named ∧ last.Listed) (fun r P _ hn hl => ⟨hn, hl⟩) ?_ r xs P h hn hl
  exact fun hm ih P h hn hl => ih _ (h.moves hm).2 (hn.moves h hm) (hl.moves hm)

/-- **A deletion** in a log carries the value that was live before. -/
theorem run_deletion (r : Roster) (xs : List Call) (h : r.Holds P) {before after : List Change}
    {p : String} {old : Context} (hlog : (r.run xs).1 = before ++ ⟨.deletion, p, old⟩ :: after) :
    ∃ Q, P.after? before = some Q ∧ Q.live? p old.id = some old := by
  refine run_induct (motive := fun r log _ => ∀ P before, r.Holds P →
    log = before ++ ⟨.deletion, p, old⟩ :: after →
      ∃ Q, P.after? before = some Q ∧ Q.live? p old.id = some old) ?_ ?_ r xs P before h hlog
  · exact fun r P before _ hlog => absurd hlog (by simp)
  · intro r c r' log last hm ih P before h hlog
    cases before with
    | nil =>
      obtain ⟨rfl, -⟩ := List.cons.inj hlog
      cases hm with
      | @deletion id _ _ names hd hnames =>
        exact ⟨P, rfl, (h.live p old.id old).mpr (h.keyed id p old hd ▸ hd)⟩
    | cons e before =>
      obtain ⟨rfl, hrest⟩ := List.cons.inj hlog
      obtain ⟨hvalid, hnext⟩ := h.moves hm
      obtain ⟨Q, hQ, hold⟩ := ih _ before hnext hrest
      exact ⟨Q, Pools.after?_cons_eq_some.mpr ⟨hvalid, hQ⟩, hold⟩

/-- A log and the roster that it leads to, starting with an empty one. -/
structure Chronicle (log : List Change) (r : Roster) : Prop where
  /-- Names lead to the live contexts that have them, and to nothing else. -/
  names : ∀ n id, r.byName? n = some id ↔ ∃ c, r.get? id = some c ∧ c.attribute? "name" = some n
  /-- Two contexts that are live do not have one name. -/
  unique : ∀ id id' c c' n, r.get? id = some c → r.get? id' = some c' →
    c.attribute? "name" = some n → c'.attribute? "name" = some n → id = id'
  /-- No identity is given to two contexts. -/
  given : (Change.added log).Nodup
  /-- A context that stays live keeps its pattern and its name. -/
  kept : ∀ xs id c c', r.get? id = some c → (r.run xs).2.get? id = some c' →
    (r.run xs).2.patternOf? id = r.patternOf? id ∧ c'.attribute? "name" = c.attribute? "name"
  /-- A call that fails changes nothing. -/
  refused : ∀ (x : Call) e r', x.action r = .error e r' → r' = r
  /-- The changes apply to an empty store one after the other, and make the facts of the snapshot. -/
  replays : ∃ store store', log.forM FactStore.apply {} = .ok ⟨⟩ store ∧
    r.snapshot.forM FactStore.apply {} = .ok ⟨⟩ store' ∧
    ∀ p id, store.get? p id = store'.get? p id ∧
      ∀ c, store.get? p id = some c ↔ c.id = id ∧ ⟨.addition, p, c⟩ ∈ r.snapshot
  /-- A removal answers the last value of the context. -/
  removed : ∀ before p c after, log = before ++ ⟨.deletion, p, c⟩ :: after →
    ∃ store, before.forM FactStore.apply {} = .ok ⟨⟩ store ∧ store.get? p c.id = some c

/-- **Calls in a row**, some of which may fail, keep a roster consistent that was empty at first. -/
theorem run_chronicle (calls : List Call) : Chronicle (run {} calls).1 (run {} calls).2 := by
  obtain ⟨Q, hQ, hholds⟩ := run_leads {} calls holds_empty
  obtain ⟨hnamed, hlisted⟩ := run_indexed {} calls holds_empty named_empty listed_empty
  have hget : ∀ {r : Roster} {id c}, r.get? id = some c ↔ ∃ p, r.live[id]? = some (p, c) := by
    intro r id c
    unfold get?
    rw [Option.map_eq_some_iff]
    exact ⟨fun ⟨e, he, hc⟩ => ⟨e.1, hc ▸ he⟩, fun ⟨p, hp⟩ => ⟨_, hp, rfl⟩⟩
  refine ⟨fun n id => ⟨fun hn => ?_, ?_⟩, ?_, ?_, ?_, fun x e r' h => Call.error h, ?_, ?_⟩
  · obtain ⟨p, c, hc, hname⟩ := hnamed n id hn
    exact ⟨c, hget.mpr ⟨p, hc⟩, hname⟩
  · rintro ⟨c, hc, hname⟩
    obtain ⟨p, hc⟩ := hget.mp hc
    exact hlisted id p c n hc hname
  · intro id id' c c' n hc hc' hn hn'
    obtain ⟨p, hc⟩ := hget.mp hc
    obtain ⟨p', hc'⟩ := hget.mp hc'
    exact Option.some.inj ((hlisted id p c n hc hn).symm.trans (hlisted id' p' c' n hc' hn'))
  · rw [(run_added {} calls).2]
    exact List.Ico.nodup _ _
  · intro xs id c c' hc hc'
    obtain ⟨p, hc⟩ := hget.mp hc
    obtain ⟨p', hc'⟩ := hget.mp hc'
    obtain ⟨old, hold, hname⟩ := run_kept _ xs hc' (hholds.given id p c hc)
    obtain ⟨rfl, rfl⟩ := Prod.mk.inj (Option.some.inj (hold.symm.trans hc))
    exact ⟨by rw [patternOf?, patternOf?, hc, hc']; rfl, hname⟩
  · obtain ⟨Q', hQ', hpools⟩ := hholds.snapshot fun _ => true
    rw [List.filter_true] at hQ'
    refine ⟨_, _, FactStore.forM_apply hQ, FactStore.forM_apply hQ', fun p id => ⟨?_, fun c => ?_⟩⟩
    · exact congrArg (·[id]?) (hpools p rfl).symm
    · exact hholds.live?_iff_mem_snapshot
  · intro before p c after hlog
    obtain ⟨Q', hQ', hlive⟩ := run_deletion {} calls holds_empty hlog
    exact ⟨_, FactStore.forM_apply hQ', hlive⟩

end Roster

end RuleMonitor
