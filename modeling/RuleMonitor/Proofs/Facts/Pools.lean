import RuleMonitor.Proofs.Collections
import RuleMonitor.Semantics.Batch
import RuleMonitor.Semantics.Truth

/-!
# Pools after changes

A change of pools is known by what is live afterwards: it decides the value of one context of one
pattern, and leaves all other contexts alone.

* `Pools.Keyed`: contexts are found under their identities; steps and batches keep that.
* `Pools.live?_step`: the contexts after a change.
* `Pools.trail`: the pools that a batch passes through.
* `Pools.AgreeOff`: pools that agree except on some contexts; **`Pools.AgreeOff.after?`**: a batch that
  does not touch these contexts is valid on both, and keeps the agreement.
* `Pools.mem_range`, `Pools.nodup_range`: the contexts that a quantifier ranges over.
-/

namespace RuleMonitor

/-- The value of a context after a change of it. -/
def Change.outcome (c : Change) : Option Context :=
  if c.kind = .deletion then none else some c.context

namespace Pools

variable {P Q P' : Pools} {p : String} {id : Nat}

/-- The live context of a pattern with an identity. -/
def live? (P : Pools) (p : String) (id : Nat) : Option Context :=
  (P.pool p)[id]?

/-- Every context is found under its identity. -/
def Keyed (P : Pools) : Prop :=
  ∀ p id (c : Context), P.live? p id = some c → c.id = id

theorem contains_pool (P : Pools) (p : String) (id : Nat) :
    (P.pool p).contains id = (P.live? p id).isSome :=
  Std.ExtTreeMap.contains_eq_isSome_getElem?

theorem pool_ext (h : ∀ id, P.live? p id = Q.live? p id) : P.pool p = Q.pool p :=
  Std.ExtTreeMap.ext_getElem? h

theorem live?_empty (p : String) (id : Nat) : (∅ : Pools).live? p id = none := by
  simp [live?, pool]

theorem keyed_empty : (∅ : Pools).Keyed := by
  intro p id c h
  rw [live?_empty] at h
  cases h

/-! ## One change -/

theorem pool_insert (P : Pools) (p p' : String) (pool : Pool) :
    Pools.pool (P.insert p pool) p' = if p = p' then pool else P.pool p' := by
  unfold Pools.pool
  rw [Std.ExtTreeMap.getD_insert]
  simp only [Std.LawfulEqCmp.compare_eq_iff_eq]

/-- **The contexts after a change.** -/
theorem live?_step (P : Pools) (c : Change) (p : String) (id : Nat) :
    (P.step c).live? p id = if c.pattern = p ∧ c.id = id then c.outcome else P.live? p id := by
  unfold live? step
  simp only
  rw [pool_insert]
  by_cases hp : c.pattern = p
  · subst hp
    rw [if_pos rfl]
    unfold Change.outcome
    cases c.kind <;> simp only [Map.getElem?_insert, Map.getElem?_erase] <;> simp
  · rw [if_neg hp, if_neg fun h => hp h.1]

theorem step_deletion_congr (P : Pools) (p : String) {c c' : Context} (h : c.id = c'.id) :
    P.step ⟨.deletion, p, c⟩ = P.step ⟨.deletion, p, c'⟩ := by
  unfold step Change.id
  rw [h]

theorem step_update (P : Pools) (p : String) {old new : Context} (h : old.id = new.id) :
    P.step ⟨.update, p, new⟩ = (P.step ⟨.deletion, p, old⟩).step ⟨.addition, p, new⟩ := by
  have hpool : (P.step ⟨.deletion, p, old⟩).pool p = (P.pool p).erase old.id := by
    unfold step
    rw [pool_insert, if_pos rfl]
    rfl
  have hinsert : ((P.pool p).erase old.id).insert new.id new = (P.pool p).insert new.id new := by
    refine Std.ExtTreeMap.ext_getElem? fun id => ?_
    rw [Map.getElem?_insert, Map.getElem?_insert, Map.getElem?_erase, h]
    split_ifs <;> rfl
  refine Std.ExtTreeMap.ext_getElem? fun p' => ?_
  change (P.insert p ((P.pool p).insert new.id new))[p']? =
    ((P.step ⟨.deletion, p, old⟩).insert p
      (((P.step ⟨.deletion, p, old⟩).pool p).insert new.id new))[p']?
  rw [hpool, hinsert, Map.getElem?_insert, Map.getElem?_insert]
  unfold step
  rw [Map.getElem?_insert]
  split_ifs <;> rfl

theorem isValid_iff (c : Change) (P : Pools) :
    c.isValid P = true ↔ ((P.live? c.pattern c.id).isSome = true ↔ c.kind ≠ .addition) := by
  unfold Change.isValid
  rw [contains_pool]
  cases c.kind <;> simp

theorem Keyed.step (hP : P.Keyed) (c : Change) : (P.step c).Keyed := by
  intro p id c' h
  rw [live?_step] at h
  split_ifs at h with hc
  · unfold Change.outcome at h
    split_ifs at h
    cases h
    exact hc.2
  · exact hP p id c' h

/-! ## Batches -/

theorem after?_cons (P : Pools) (c : Change) (rest : List Change) :
    P.after? (c :: rest) = if c.isValid P then (P.step c).after? rest else none := rfl

theorem after?_cons_eq_some {c : Change} {rest : List Change} :
    P.after? (c :: rest) = some P' ↔ c.isValid P = true ∧ (P.step c).after? rest = some P' := by
  rw [after?_cons]
  split_ifs with h
  · exact ⟨fun h' => ⟨h, h'⟩, fun h' => h'.2⟩
  · exact ⟨nofun, fun h' => absurd h'.1 h⟩

theorem after?_append (P : Pools) (l l' : List Change) :
    P.after? (l ++ l') = (P.after? l).bind fun Q => Q.after? l' := by
  induction l generalizing P with
  | nil => rfl
  | cons c l ih =>
    rw [List.cons_append, after?_cons, after?_cons]
    split_ifs
    · exact ih _
    · rfl

theorem after?_concat {l : List Change} {c : Change} (h : P.after? l = some Q)
    (hc : c.isValid Q = true) : P.after? (l ++ [c]) = some (Q.step c) := by
  rw [after?_append, h]
  exact after?_cons_eq_some.mpr ⟨hc, rfl⟩

theorem Keyed.after? {l : List Change} (hP : P.Keyed) (h : P.after? l = some Q) : Q.Keyed := by
  induction l generalizing P with
  | nil =>
    cases h
    exact hP
  | cons c l ih =>
    rw [after?_cons_eq_some] at h
    exact ih (hP.step c) h.2

/-- The pools after each of the additions and deletions that a batch consists of, where an update is a
deletion and an addition. -/
def trail (P : Pools) : List Change → List Pools
  | [] => []
  | c :: rest =>
    (if c.kind = .update then [P.step ⟨.deletion, c.pattern, c.context⟩, P.step c] else [P.step c]) ++
      (P.step c).trail rest

theorem trail_singleton (P : Pools) (c : Change) : P.trail [c] =
    if c.kind = .update then [P.step ⟨.deletion, c.pattern, c.context⟩, P.step c]
      else [P.step c] :=
  List.append_nil _

theorem trail_cons (P : Pools) (c : Change) (rest : List Change) :
    P.trail (c :: rest) = P.trail [c] ++ (P.step c).trail rest := by
  rw [trail_singleton]
  rfl

theorem trail_cons_of_ne {c : Change} (hk : c.kind ≠ .update) (P : Pools) (rest : List Change) :
    P.trail (c :: rest) = P.step c :: (P.step c).trail rest := by
  rw [trail_cons, trail_singleton, if_neg hk, List.singleton_append]

/-! ## Contexts that a batch does not touch -/

/-- The pools agree except on contexts with some identities. -/
def AgreeOff (ids : List Nat) (P Q : Pools) : Prop :=
  ∀ p id, id ∉ ids → P.live? p id = Q.live? p id

theorem live?_step_of_ne {c : Change} (h : c.id ≠ id) : (P.step c).live? p id = P.live? p id := by
  rw [live?_step, if_neg fun hc => h hc.2]

theorem live?_after?_of_untouched {l : List Change} (h : P.after? l = some Q)
    (hl : ∀ c ∈ l, c.pattern = p → c.id ≠ id) : Q.live? p id = P.live? p id := by
  induction l generalizing P with
  | nil =>
    cases h
    rfl
  | cons c l ih =>
    rw [after?_cons_eq_some] at h
    rw [ih h.2 fun c' hc' => hl c' (List.mem_cons_of_mem c hc'), live?_step,
      if_neg fun hc => hl c List.mem_cons_self hc.1 hc.2]

theorem pool_after?_of_untouched {l : List Change} (h : P.after? l = some Q)
    (hl : p ∉ l.map (·.pattern)) : Q.pool p = P.pool p :=
  pool_ext fun _ => live?_after?_of_untouched h fun c hc hp =>
    absurd (List.mem_map.mpr ⟨c, hc, hp⟩) hl

theorem AgreeOff.step {ids : List Nat} (h : AgreeOff ids P Q) (c : Change) :
    AgreeOff ids (P.step c) (Q.step c) := by
  intro p id hid
  rw [live?_step, live?_step, h p id hid]

theorem AgreeOff.isValid {ids : List Nat} (h : AgreeOff ids P Q) {c : Change} (hc : c.id ∉ ids) :
    c.isValid P = c.isValid Q := by
  rw [Bool.eq_iff_iff, isValid_iff, isValid_iff, h _ _ hc]

/-- **A batch that touches none of the contexts** on which pools differ is valid on both if on one, and
keeps the agreement. -/
theorem AgreeOff.after? {ids : List Nat} {l : List Change} (h : AgreeOff ids P Q)
    (hl : ∀ c ∈ l, c.id ∉ ids) (hP : P.after? l = some P') :
    ∃ Q', Q.after? l = some Q' ∧ AgreeOff ids P' Q' := by
  induction l generalizing P Q with
  | nil =>
    cases hP
    exact ⟨Q, rfl, h⟩
  | cons c l ih =>
    rw [after?_cons_eq_some] at hP
    have hc := h.isValid (hl c List.mem_cons_self)
    obtain ⟨Q', hQ, hPQ⟩ := ih (h.step c) (fun c' hc' => hl c' (List.mem_cons_of_mem c hc')) hP.2
    exact ⟨Q', after?_cons_eq_some.mpr ⟨hc ▸ hP.1, hQ⟩, hPQ⟩

/-! ## Ranges -/

theorem mem_domain (hP : P.Keyed) {c : Context} :
    c ∈ P.domain p ↔ P.live? p c.id = some c := by
  unfold domain
  rw [Map.mem_values]
  constructor
  · rintro ⟨k, hk⟩
    rwa [hP p k c hk]
  · exact fun h => ⟨c.id, h⟩

theorem nodup_domain (hP : P.Keyed) (p : String) : ((P.domain p).map (·.id)).Nodup :=
  Map.nodup_map_values fun k c => hP p k c

theorem mem_range (hP : P.Keyed) {q : Quantifier} {env : Env} {c : Context} :
    c ∈ q.range P env ↔ P.live? q.pattern c.id = some c ∧ q.admits env c = true := by
  unfold Quantifier.range
  rw [List.mem_filter, mem_domain hP]

theorem nodup_range (hP : P.Keyed) (q : Quantifier) (env : Env) :
    ((q.range P env).map (·.id)).Nodup :=
  (nodup_domain hP q.pattern).sublist (List.filter_sublist.map _)

theorem range_congr {q : Quantifier} (h : P.pool q.pattern = Q.pool q.pattern) (env : Env) :
    q.range P env = q.range Q env := by
  unfold Quantifier.range domain
  rw [h]

end Pools

end RuleMonitor
