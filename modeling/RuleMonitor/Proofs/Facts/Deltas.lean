import RuleMonitor.Evaluation.Edit
import RuleMonitor.Proofs.Routines
import RuleMonitor.Proofs.Facts.Pools

/-!
# Deltas of a batch

The delta of a pattern **separates** the pool before a batch from the pool after it: what it lists as
added, deleted and updated has the values that it had before and has now, and nothing else changed.

* `Delta.Fate`, `Delta.Separates`; `Delta.Separates.record`: one more change.
* **`FactStore.applyBatch_ok`**: a valid batch is applied, and each delta separates the pools.
* `Delta.drops`, **`Delta.Separates.values_perm`**: the pool after the batch consists of the contexts
  that stay and the new ones.
-/

namespace RuleMonitor

open Std (ExtTreeMap)

namespace Delta

/-- What a delta says of a context (added, deleted, updated), with the values before and after. -/
inductive Fate : Option Context → Option Context → Option (Context × Context) →
    Option Context → Option Context → Prop
  | same (v : Option Context) : Fate none none none v v
  | added (c : Context) : Fate (some c) none none none (some c)
  | deleted (c : Context) : Fate none (some c) none (some c) none
  | updated (a b : Context) : Fate none none (some (a, b)) (some a) (some b)

/-- The delta lists what separates two pools. -/
def Separates (d : Delta) (P Q : Pool) : Prop :=
  ∀ id : Nat, Fate d.added[id]? d.deleted[id]? d.updated[id]? P[id]? Q[id]?

theorem separates_refl (P : Pool) : Separates {} P P := fun id => by
  have := Fate.same P[id]?
  simpa using this

variable {d : Delta} {P Q : Pool}

theorem Separates.addition (h : d.Separates P Q) {c : Context} (hc : Q[c.id]? = none) :
    (d.addition c).Separates P (Q.insert c.id c) := by
  intro id
  by_cases hid : c.id = id
  · subst hid
    have hf := h c.id
    rw [hc] at hf
    generalize ha : d.added[c.id]? = a at hf
    generalize hd : d.deleted[c.id]? = b at hf
    generalize hu : d.updated[c.id]? = u at hf
    generalize hp : P[c.id]? = v at hf
    cases hf with
    | same =>
      have := Fate.added c
      simpa [Delta.addition, Map.getElem?_insert, hd, hu, hp] using this
    | deleted before =>
      have := Fate.updated before c
      simpa [Delta.addition, Map.getElem?_insert, Map.getElem?_erase, ha, hd, hp] using this
  · have hf := h id
    unfold Delta.addition
    split <;> simpa [Map.getElem?_insert, Map.getElem?_erase, hid] using hf

theorem Separates.deletion (h : d.Separates P Q) {old : Context} (hc : Q[old.id]? = some old) :
    (d.deletion old).Separates P (Q.erase old.id) := by
  intro id
  by_cases hid : old.id = id
  · subst hid
    have hf := h old.id
    rw [hc] at hf
    generalize ha : d.added[old.id]? = a at hf
    generalize hd : d.deleted[old.id]? = b at hf
    generalize hu : d.updated[old.id]? = u at hf
    generalize hp : P[old.id]? = v at hf
    cases hf with
    | same =>
      have := Fate.deleted old
      simpa [Delta.deletion, Map.getElem?_insert, Map.getElem?_erase,
        ExtTreeMap.contains_eq_isSome_getElem?, ha, hu, hp] using this
    | added =>
      have := Fate.same none
      simpa [Delta.deletion, Map.getElem?_erase, ExtTreeMap.contains_eq_isSome_getElem?, ha, hd,
        hu, hp] using this
    | updated before =>
      have := Fate.deleted before
      simpa [Delta.deletion, Map.getElem?_insert, Map.getElem?_erase,
        ExtTreeMap.contains_eq_isSome_getElem?, ha, hu, hp] using this
  · have hf := h id
    unfold Delta.deletion
    simp only
    split_ifs
    · simpa [Map.getElem?_insert, Map.getElem?_erase, hid] using hf
    · split <;> simpa [Map.getElem?_insert, Map.getElem?_erase, hid] using hf

theorem Separates.update (h : d.Separates P Q) {old new : Context} (hc : Q[new.id]? = some old) :
    (d.update old new).Separates P (Q.insert new.id new) := by
  intro id
  by_cases hid : new.id = id
  · subst hid
    have hf := h new.id
    rw [hc] at hf
    generalize ha : d.added[new.id]? = a at hf
    generalize hd : d.deleted[new.id]? = b at hf
    generalize hu : d.updated[new.id]? = u at hf
    generalize hp : P[new.id]? = v at hf
    cases hf with
    | same =>
      have := Fate.updated old new
      simpa [Delta.update, Map.getElem?_insert, ExtTreeMap.contains_eq_isSome_getElem?, ha, hd, hu,
        hp] using this
    | added =>
      have := Fate.added new
      simpa [Delta.update, Map.getElem?_insert, ExtTreeMap.contains_eq_isSome_getElem?, ha, hd, hu,
        hp] using this
    | updated before =>
      have := Fate.updated before new
      simpa [Delta.update, Map.getElem?_insert, ExtTreeMap.contains_eq_isSome_getElem?, ha, hd, hu,
        hp] using this
  · have hf := h id
    unfold Delta.update
    simp only
    split_ifs
    · simpa [Map.getElem?_insert, hid] using hf
    · split <;> simpa [Map.getElem?_insert, hid] using hf

/-! ## Contexts that stay and contexts that are new -/

/-- The context was deleted or updated. -/
def drops (d : Delta) (id : Nat) : Bool :=
  d.deleted.contains id || d.updated.contains id

theorem drops_iff {id : Nat} :
    d.drops id = true ↔ d.deleted[id]?.isSome = true ∨ d.updated[id]?.isSome = true := by
  rw [drops, Bool.or_eq_true, ExtTreeMap.contains_eq_isSome_getElem?,
    ExtTreeMap.contains_eq_isSome_getElem?]

variable (hP : ∀ (id : Nat) c, P[id]? = some c → c.id = id)
  (hQ : ∀ (id : Nat) c, Q[id]? = some c → c.id = id)

theorem Separates.before_of_deleted (h : d.Separates P Q) {id : Nat} {c : Context}
    (hc : d.deleted[id]? = some c) : P[id]? = some c ∧ Q[id]? = none := by
  have hf := h id
  rw [hc] at hf
  generalize d.added[id]? = a at hf
  generalize d.updated[id]? = u at hf
  generalize P[id]? = v at hf
  generalize Q[id]? = w at hf
  cases hf
  exact ⟨rfl, rfl⟩

theorem Separates.after_of_added (h : d.Separates P Q) {id : Nat} {c : Context}
    (hc : d.added[id]? = some c) : P[id]? = none ∧ Q[id]? = some c := by
  have hf := h id
  rw [hc] at hf
  generalize d.deleted[id]? = b at hf
  generalize d.updated[id]? = u at hf
  generalize P[id]? = v at hf
  generalize Q[id]? = w at hf
  cases hf
  exact ⟨rfl, rfl⟩

theorem Separates.both_of_updated (h : d.Separates P Q) {id : Nat} {a b : Context}
    (hc : d.updated[id]? = some (a, b)) : P[id]? = some a ∧ Q[id]? = some b := by
  have hf := h id
  rw [hc] at hf
  generalize d.added[id]? = x at hf
  generalize d.deleted[id]? = y at hf
  generalize P[id]? = v at hf
  generalize Q[id]? = w at hf
  cases hf
  exact ⟨rfl, rfl⟩

include hP in
theorem Separates.mem_formerContexts (h : d.Separates P Q) {c : Context} :
    c ∈ Setting.formerContexts d ↔ P[c.id]? = some c ∧ d.drops c.id = true := by
  unfold Setting.formerContexts
  rw [List.mem_append, Map.mem_values, List.mem_map, drops_iff]
  constructor
  · rintro (⟨id, hid⟩ | ⟨⟨a, b⟩, hab, rfl⟩)
    · have hc := (h.before_of_deleted hid).1
      obtain rfl := hP id c hc
      exact ⟨hc, .inl (by rw [hid, Option.isSome_some])⟩
    · obtain ⟨id, hid⟩ := Map.mem_values.mp hab
      have ha := (h.both_of_updated hid).1
      obtain rfl := hP id a ha
      exact ⟨ha, .inr (by rw [hid, Option.isSome_some])⟩
  · rintro ⟨hc, hd | hd⟩
    · obtain ⟨c', hc'⟩ := Option.isSome_iff_exists.mp hd
      have := (h.before_of_deleted hc').1
      rw [hc] at this
      cases this
      exact .inl ⟨_, hc'⟩
    · obtain ⟨⟨a, b⟩, hab⟩ := Option.isSome_iff_exists.mp hd
      have := (h.both_of_updated hab).1
      rw [hc] at this
      cases this
      exact .inr ⟨(c, b), Map.mem_values.mpr ⟨_, hab⟩, rfl⟩

include hP in
theorem Separates.nodup_formerContexts (h : d.Separates P Q) :
    ((Setting.formerContexts d).map (·.id)).Nodup := by
  unfold Setting.formerContexts
  rw [List.map_append, List.map_map, List.nodup_append]
  refine ⟨Map.nodup_map_values fun k c hc => hP k c (h.before_of_deleted hc).1,
    Map.nodup_map_values fun k e he => hP k e.1 (h.both_of_updated he).1, ?_⟩
  intro i hi j hj e
  obtain ⟨c, hc, rfl⟩ := List.mem_map.mp hi
  obtain ⟨e', he', rfl⟩ := List.mem_map.mp hj
  obtain ⟨k, hk⟩ := Map.mem_values.mp hc
  obtain ⟨k', hk'⟩ := Map.mem_values.mp he'
  have h₁ := hP k c (h.before_of_deleted hk).1
  have h₂ := hP k' e'.1 (h.both_of_updated hk').1
  have hkk : k = k' := h₁.symm.trans (e.trans h₂)
  subst hkk
  have := (h.before_of_deleted hk).2
  rw [(h.both_of_updated hk').2] at this
  cases this

include hQ in
theorem Separates.mem_newContexts (h : d.Separates P Q) {c : Context} :
    c ∈ Setting.newContexts d ↔
      Q[c.id]? = some c ∧ (d.added[c.id]?.isSome = true ∨ d.updated[c.id]?.isSome = true) := by
  unfold Setting.newContexts
  rw [List.mem_append, Map.mem_values, List.mem_map]
  constructor
  · rintro (⟨⟨a, b⟩, hab, rfl⟩ | ⟨id, hid⟩)
    · obtain ⟨id, hid⟩ := Map.mem_values.mp hab
      have hb := (h.both_of_updated hid).2
      obtain rfl := hQ id b hb
      exact ⟨hb, .inr (by rw [hid, Option.isSome_some])⟩
    · have hc := (h.after_of_added hid).2
      obtain rfl := hQ id c hc
      exact ⟨hc, .inl (by rw [hid, Option.isSome_some])⟩
  · rintro ⟨hc, hd | hd⟩
    · obtain ⟨c', hc'⟩ := Option.isSome_iff_exists.mp hd
      have := (h.after_of_added hc').2
      rw [hc] at this
      cases this
      exact .inr ⟨_, hc'⟩
    · obtain ⟨⟨a, b⟩, hab⟩ := Option.isSome_iff_exists.mp hd
      have := (h.both_of_updated hab).2
      rw [hc] at this
      cases this
      exact .inl ⟨(a, c), Map.mem_values.mpr ⟨_, hab⟩, rfl⟩

include hQ in
theorem Separates.nodup_newContexts (h : d.Separates P Q) :
    ((Setting.newContexts d).map (·.id)).Nodup := by
  unfold Setting.newContexts
  rw [List.map_append, List.map_map, List.nodup_append]
  refine ⟨Map.nodup_map_values fun k e he => hQ k e.2 (h.both_of_updated he).2,
    Map.nodup_map_values fun k c hc => hQ k c (h.after_of_added hc).2, ?_⟩
  intro i hi j hj e
  obtain ⟨e', he', rfl⟩ := List.mem_map.mp hi
  obtain ⟨c, hc, rfl⟩ := List.mem_map.mp hj
  obtain ⟨k, hk⟩ := Map.mem_values.mp hc
  obtain ⟨k', hk'⟩ := Map.mem_values.mp he'
  have h₁ := hQ k c (h.after_of_added hk).2
  have h₂ := hQ k' e'.2 (h.both_of_updated hk').2
  have hkk : k' = k := h₂.symm.trans (e.trans h₁)
  subst hkk
  have := (h.after_of_added hk).1
  rw [(h.both_of_updated hk').1] at this
  cases this

theorem Separates.after_of_not_drops (h : d.Separates P Q) {id : Nat} {c : Context}
    (hc : P[id]? = some c) (hd : d.drops id = false) : Q[id]? = some c := by
  have hf := h id
  have hd' : ¬ (d.deleted[id]?.isSome = true ∨ d.updated[id]?.isSome = true) := by
    rw [← drops_iff, hd]
    nofun
  rw [hc] at hf
  generalize d.added[id]? = x at hf
  generalize d.deleted[id]? = y at hf hd'
  generalize d.updated[id]? = z at hf hd'
  generalize Q[id]? = w at hf ⊢
  cases hf with
  | same => rfl
  | deleted => exact absurd (.inl rfl) hd'
  | updated => exact absurd (.inr rfl) hd'

theorem Separates.before_of_not_new (h : d.Separates P Q) {id : Nat} {c : Context}
    (hc : Q[id]? = some c) (ha : d.added[id]? = none) (hu : d.updated[id]? = none) :
    P[id]? = some c ∧ d.drops id = false := by
  have hd : ¬ (d.deleted[id]?.isSome = true ∨ d.updated[id]?.isSome = true) → d.drops id = false :=
    fun h => by rwa [← drops_iff, Bool.not_eq_true] at h
  have hf := h id
  rw [hc, ha, hu] at hf
  rw [hu] at hd
  generalize d.deleted[id]? = y at hf hd
  generalize P[id]? = v at hf ⊢
  cases hf
  exact ⟨rfl, hd (by simp)⟩

include hP hQ in
/-- **The pool after the changes** consists of the contexts that stay and of the new ones. -/
theorem Separates.values_perm (h : d.Separates P Q) :
    Q.values.Perm (P.values.filter (fun c => !d.drops c.id) ++ Setting.newContexts d) := by
  have hmP : ∀ c : Context, c ∈ P.values ↔ P[c.id]? = some c := fun c =>
    Map.mem_values.trans ⟨fun ⟨k, hk⟩ => by rwa [hP k c hk], fun hc => ⟨c.id, hc⟩⟩
  have hmQ : ∀ c : Context, c ∈ Q.values ↔ Q[c.id]? = some c := fun c =>
    Map.mem_values.trans ⟨fun ⟨k, hk⟩ => by rwa [hQ k c hk], fun hc => ⟨c.id, hc⟩⟩
  have hnd : ((P.values.filter (fun c => !d.drops c.id) ++ Setting.newContexts d).map
      (·.id)).Nodup := by
    rw [List.map_append, List.nodup_append]
    refine ⟨(Map.nodup_map_values fun k c => hP k c).sublist (List.filter_sublist.map _),
      h.nodup_newContexts hQ, ?_⟩
    intro i hi j hj e
    obtain ⟨c, hc, rfl⟩ := List.mem_map.mp hi
    obtain ⟨c', hc', rfl⟩ := List.mem_map.mp hj
    rw [List.mem_filter, hmP, Bool.not_eq_true'] at hc
    rw [h.mem_newContexts hQ, ← e] at hc'
    rcases hc'.2 with ha | hu
    · obtain ⟨a, ha⟩ := Option.isSome_iff_exists.mp ha
      rw [(h.after_of_added ha).1] at hc
      cases hc.1
    · rw [drops_iff.mpr (.inr hu)] at hc
      cases hc.2
  refine (List.perm_ext_iff_of_nodup (List.Nodup.of_map _ (Map.nodup_map_values fun k c => hQ k c))
    (List.Nodup.of_map _ hnd)).mpr fun c => ?_
  rw [hmQ, List.mem_append, List.mem_filter, hmP, h.mem_newContexts hQ, Bool.not_eq_true']
  constructor
  · intro hc
    cases ha : d.added[c.id]? with
    | some a => exact .inr ⟨hc, .inl rfl⟩
    | none =>
      cases hu : d.updated[c.id]? with
      | some u => exact .inr ⟨hc, .inr rfl⟩
      | none => exact .inl (h.before_of_not_new hc ha hu)
  · rintro (⟨hc, hd⟩ | ⟨hc, -⟩)
    · exact h.after_of_not_drops hc hd
    · exact hc

end Delta

/-! ## Batches on the store -/

namespace FactStore

/-- The deltas separate pools from those of the store. -/
def SeparatedFrom (s : FactStore) (P : Pools) : Prop :=
  ∀ p, (s.delta p).Separates (P.pool p) (s.pools.pool p)

theorem separatedFrom_of_deltas_eq {s : FactStore} (h : s.deltas = ∅) :
    s.SeparatedFrom s.pools := by
  intro p
  have hd : s.delta p = {} := by
    unfold delta
    rw [h]
    exact ExtTreeMap.getD_empty
  rw [hd]
  exact Delta.separates_refl _

theorem apply_ok {s : FactStore} {c : Change} (h : c.isValid s.pools = true) :
    FactStore.apply c s = .ok () { s with pools := s.pools.step c } := by
  have hc : (s.pool c.pattern).contains c.id = (s.pools.live? c.pattern c.id).isSome :=
    s.pools.contains_pool c.pattern c.id
  rw [Pools.isValid_iff] at h
  unfold FactStore.apply
  rw [Routine.get_bind]
  simp only [hc]
  unfold Pools.step
  cases hk : c.kind with
  | addition =>
    have hn : (s.pools.live? c.pattern c.id).isSome = false := by
      simpa [hk] using h
    simp only [hn]
    rfl
  | deletion =>
    have hs : (s.pools.live? c.pattern c.id).isSome = true := by
      simpa [hk] using h
    simp only [hs]
    rfl
  | update =>
    have hs : (s.pools.live? c.pattern c.id).isSome = true := by
      simpa [hk] using h
    simp only [hs]
    rfl

theorem isValid_of_apply {s s' : FactStore} {c : Change} {u : Unit}
    (h : FactStore.apply c s = .ok u s') : c.isValid s.pools = true := by
  have hc : (s.pool c.pattern).contains c.id = (s.pools.pool c.pattern).contains c.id := rfl
  unfold FactStore.apply at h
  rw [Routine.get_bind] at h
  unfold Change.isValid
  simp only [hc] at h ⊢
  cases hk : c.kind with
  | addition =>
    cases hl : (s.pools.pool c.pattern).contains c.id with
    | false => rfl
    | true =>
      rw [hk, hl] at h
      cases h
  | deletion | update =>
    cases hl : (s.pools.pool c.pattern).contains c.id with
    | true => rfl
    | false =>
      rw [hk, hl] at h
      cases h

/-- The store after one change on the pools and the deltas. -/
def recorded (s : FactStore) (c : Change) : FactStore where
  pools := s.pools.step c
  deltas := s.deltas.insert c.pattern
    ((s.delta c.pattern).record c ((s.get? c.pattern c.id).getD c.context))

theorem applyRecorded_ok {s : FactStore} {c : Change} (h : c.isValid s.pools = true) :
    applyRecorded c s = .ok () (s.recorded c) := by
  unfold applyRecorded
  rw [Routine.get_bind, Routine.bind_ok (apply_ok h)]
  rfl

theorem delta_recorded (s : FactStore) (c : Change) (p : String) :
    (s.recorded c).delta p = if c.pattern = p then
      (s.delta p).record c ((s.get? p c.id).getD c.context) else s.delta p := by
  unfold FactStore.recorded FactStore.delta
  rw [ExtTreeMap.getD_insert]
  simp only [Std.LawfulEqCmp.compare_eq_iff_eq]
  split_ifs with hp
  · rw [hp]
  · rfl

theorem SeparatedFrom.step {s : FactStore} {P : Pools} (h : s.SeparatedFrom P)
    (hk : s.pools.Keyed) {c : Change} (hc : c.isValid s.pools = true) :
    (s.recorded c).SeparatedFrom P := by
  intro p
  rw [delta_recorded]
  unfold recorded Pools.step
  simp only
  rw [Pools.pool_insert]
  split_ifs with hp
  · subst hp
    rw [Pools.isValid_iff] at hc
    change (s.pools.pool c.pattern)[c.id]?.isSome = true ↔ _ at hc
    change Delta.Separates (Delta.record _ c (((s.pools.pool c.pattern)[c.id]?).getD _)) _ _
    unfold Delta.record
    cases hkind : c.kind with
    | addition =>
      have hn : (s.pools.pool c.pattern)[c.id]? = none := by simpa [hkind] using hc
      exact (h c.pattern).addition hn
    | deletion =>
      have hs : (s.pools.pool c.pattern)[c.id]?.isSome = true := by simpa [hkind] using hc
      obtain ⟨old, ho⟩ := Option.isSome_iff_exists.mp hs
      have hid : old.id = c.id := hk _ _ _ ho
      rw [ho, ← hid]
      exact (h c.pattern).deletion (hid ▸ ho)
    | update =>
      have hs : (s.pools.pool c.pattern)[c.id]?.isSome = true := by simpa [hkind] using hc
      obtain ⟨old, ho⟩ := Option.isSome_iff_exists.mp hs
      rw [ho]
      exact (h c.pattern).update ho
  · exact h p

/-- **A valid batch is applied**, and each delta separates the pools before from those after it. -/
theorem applyBatch_ok {batch : List Change} : ∀ {s : FactStore} {P Q : Pools},
    s.SeparatedFrom P → s.pools.Keyed → s.pools.after? batch = some Q →
    ∃ s', applyBatch batch s = .ok () s' ∧ s'.pools = Q ∧ s'.SeparatedFrom P := by
  induction batch with
  | nil =>
    intro s P Q hs _ hq
    cases hq
    exact ⟨s, rfl, rfl, hs⟩
  | cons c rest ih =>
    intro s P Q hs hk hq
    rw [Pools.after?_cons_eq_some] at hq
    obtain ⟨s', h₁, h₂, h₃⟩ := ih (hs.step hk hq.1) (hk.step c) hq.2
    refine ⟨s', ?_, h₂, h₃⟩
    unfold applyBatch
    rw [Routine.bind_ok (applyRecorded_ok hq.1), h₁]

theorem apply_error {c : Change} {s s' : FactStore} {e : Failure} (h : apply c s = .error e s') :
    ∃ text, e = .inconsistent text := by
  unfold apply at h
  rw [Routine.get_bind] at h
  cases hk : c.kind with
  | addition =>
    cases hl : (s.pool c.pattern).contains c.id with
    | false =>
      rw [hk, hl] at h
      cases h
    | true =>
      rw [hk, hl] at h
      cases h
      exact ⟨_, rfl⟩
  | deletion | update =>
    cases hl : (s.pool c.pattern).contains c.id with
    | true =>
      rw [hk, hl] at h
      cases h
    | false =>
      rw [hk, hl] at h
      cases h
      exact ⟨_, rfl⟩

theorem applyBatch_error {batch : List Change} : ∀ {s s' : FactStore} {e : Failure},
    applyBatch batch s = .error e s' → ∃ text, e = .inconsistent text := by
  induction batch with
  | nil => exact fun h => nomatch h
  | cons c rest ih =>
    intro s s' e h
    rcases Routine.bind_eq_error.mp h with h | ⟨_, s₁, -, h⟩
    · unfold applyRecorded at h
      rw [Routine.get_bind] at h
      rcases Routine.bind_eq_error.mp h with h | ⟨_, _, -, h⟩
      · exact apply_error h
      · cases h
    · exact ih h

theorem after?_of_applyBatch {batch : List Change} : ∀ {s s' : FactStore} {u : Unit},
    applyBatch batch s = .ok u s' → ∃ Q, s.pools.after? batch = some Q := by
  induction batch with
  | nil => exact fun _ => ⟨_, rfl⟩
  | cons c rest ih =>
    intro s s' u h
    obtain ⟨u₁, s₁, h₁, hrest⟩ := Routine.bind_eq_ok.mp h
    have hv : c.isValid s.pools = true := by
      unfold applyRecorded at h₁
      rw [Routine.get_bind] at h₁
      obtain ⟨u₂, s₂, h₂, -⟩ := Routine.bind_eq_ok.mp h₁
      exact isValid_of_apply h₂
    rw [applyRecorded_ok hv] at h₁
    cases h₁
    obtain ⟨Q, hQ⟩ := ih hrest
    exact ⟨Q, Pools.after?_cons_eq_some.mpr ⟨hv, hQ⟩⟩

end FactStore

end RuleMonitor
