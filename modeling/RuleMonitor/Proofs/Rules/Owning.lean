import RuleMonitor.Proofs.Rules.Checking
import RuleMonitor.Proofs.Rules.Lasting

/-!
# Work on a rule of its own

Work on a rule reads what all rules share, and the rule itself. It writes nothing but the rule, apart
from the accounts, which nobody reads. So it goes the same way wherever these are the same, and leaves
everything else as it was.

* `Routine.ConfinedAt`: a computation that depends on a part of the state, and leaves the rest.
* `Checker.own`, `Checker.rest`: what a rule has, and what the other rules have.
* **`Checker.confined_checkBatch`**, **`Checker.confined_addRule`**, **`Checker.confined_replace`**: the
  operations.
-/

namespace RuleMonitor

open Std (ExtTreeMap)

namespace Routine

variable {σ τ ν μ ν' μ' α β : Type} {own : σ → ν} {rest : σ → μ} {s : σ}

/-- If the computation succeeds from a state, it leaves the rest of the state alone, and it does the same
from every state whose own part is the same. -/
def ConfinedAt (own : σ → ν) (rest : σ → μ) (x : Routine σ α) (s : σ) : Prop :=
  ∀ ⦃a s'⦄, x s = .ok a s' → rest s' = rest s ∧
    ∀ t, own t = own s → ∃ t', x t = .ok a t' ∧ own t' = own s'

theorem confinedAt_pure (a : α) (s : σ) : ConfinedAt own rest (pure a) s := by
  intro b s' h
  cases h
  exact ⟨rfl, fun t ht => ⟨t, rfl, ht⟩⟩

theorem confinedAt_throw (e : Failure) (s : σ) : ConfinedAt own rest (throw e : Routine σ α) s :=
  fun _ _ h => nomatch h

theorem confinedAt_ofExcept (x : Except Failure α) (s : σ) :
    ConfinedAt own rest (ofExcept x : Routine σ α) s := by
  cases x with
  | ok a => exact confinedAt_pure a s
  | error e => exact confinedAt_throw e s

theorem ConfinedAt.bind {x : Routine σ α} {f : α → Routine σ β} (hx : ConfinedAt own rest x s)
    (hf : ∀ a s', x s = .ok a s' → ConfinedAt own rest (f a) s') :
    ConfinedAt own rest (x >>= f) s := by
  intro b s' h
  obtain ⟨a, s₁, h₁, h₂⟩ := bind_eq_ok.mp h
  obtain ⟨hrest₁, hown₁⟩ := hx h₁
  obtain ⟨hrest₂, hown₂⟩ := hf a s₁ h₁ h₂
  refine ⟨hrest₂.trans hrest₁, fun t ht => ?_⟩
  obtain ⟨t₁, ht₁, he₁⟩ := hown₁ t ht
  obtain ⟨t₂, ht₂, he₂⟩ := hown₂ t₁ he₁
  exact ⟨t₂, (bind_ok ht₁).trans ht₂, he₂⟩

theorem confinedAt_get {f : σ → Routine σ β} (hown : ∀ t, own t = own s → f t = f s)
    (hf : ConfinedAt own rest (f s) s) : ConfinedAt own rest (get >>= f) s := by
  intro b s' h
  obtain ⟨hrest, hstep⟩ := hf h
  refine ⟨hrest, fun t ht => ?_⟩
  obtain ⟨t', ht', he⟩ := hstep t ht
  exact ⟨t', by rw [get_bind, hown t ht, ht'], he⟩

theorem confinedAt_modify {g : σ → σ} (hrest : rest (g s) = rest s)
    (hown : ∀ t, own t = own s → own (g t) = own (g s)) :
    ConfinedAt own rest (modify g : Routine σ PUnit) s := by
  intro a s' h
  cases h
  exact ⟨hrest, fun t ht => ⟨g t, rfl, hown t ht⟩⟩

/-- The state is written as a whole, but nothing besides the own part is read or changed. -/
theorem confinedAt_update {g : σ → σ} {f : σ → Routine σ β} (hrest : rest (g s) = rest s)
    (hown : ∀ t, own t = own s → own (g t) = own (g s)) (hread : ∀ t, own t = own s → f t = f s)
    (hf : ConfinedAt own rest (f s) (g s)) :
    ConfinedAt own rest (get >>= fun s => set (g s) >>= fun _ => f s) s := by
  intro b s' h
  obtain ⟨hrest', hstep⟩ := hf h
  refine ⟨hrest'.trans hrest, fun t ht => ?_⟩
  obtain ⟨t', ht', he⟩ := hstep (g t) (hown t ht)
  exact ⟨t', by rw [get_bind, set_bind, hread t ht, ht'], he⟩

theorem ConfinedAt.onPart {read : σ → τ} {write : τ → σ → σ} {own' : τ → ν'} {rest' : τ → μ'}
    {x : Routine τ α} (hx : ConfinedAt own' rest' x (read s))
    (hrest : ∀ u, rest' u = rest' (read s) → rest (write u s) = rest s)
    (hread : ∀ t, own t = own s → own' (read t) = own' (read s))
    (hwrite : ∀ t u v, own t = own s → own' u = own' v → own (write u t) = own (write v s)) :
    ConfinedAt own rest (Routine.onPart read write x) s := by
  intro a s' h
  obtain ⟨u, hu, rfl⟩ := exists_of_onPart h
  obtain ⟨hrest', hstep⟩ := hx hu
  refine ⟨hrest u hrest', fun t ht => ?_⟩
  obtain ⟨v, hv, he⟩ := hstep (read t) (hread t ht)
  exact ⟨write v t, onPart_ok hv, hwrite t v u ht he⟩

end Routine

namespace Checker

open Routine

variable {α : Type} {c d : Checker} {id : String}

/-- What work on a rule reads and writes. -/
structure Own where
  options : CheckerOptions
  registry : Registry
  rule : Option Rule

/-- What work on a rule leaves alone. -/
structure Rest where
  options : CheckerOptions
  registry : Registry
  others : String → Option Rule

/-- What a rule has. -/
def own (id : String) (c : Checker) : Own :=
  ⟨c.options, c.registry, c.rules[id]?⟩

/-- What the other rules have. -/
def rest (id : String) (c : Checker) : Rest :=
  ⟨c.options, c.registry, fun k => if k = id then none else c.rules[k]?⟩

theorem own_eq_of_bare (h : d.bare = c.bare) (id : String) : d.own id = c.own id := by
  unfold own
  rw [options_eq_of_bare h, registry_eq_of_bare h, rules_eq_of_bare h]

theorem rest_eq_of_bare (h : d.bare = c.bare) (id : String) : d.rest id = c.rest id := by
  unfold rest
  rw [options_eq_of_bare h, registry_eq_of_bare h, rules_eq_of_bare h]

theorem engine_eq_of_own (h : d.own id = c.own id) : d.engine = c.engine := by
  obtain ⟨hoptions, hregistry, -⟩ := Own.mk.inj h
  unfold engine
  rw [hoptions, hregistry]

theorem rule_eq_of_own (h : d.own id = c.own id) : d.rule id = c.rule id := by
  have hrule : d.rules[id]? = c.rules[id]? := congrArg Own.rule h
  unfold rule
  rw [hrule]

/-- A rule that is put in the place of its former self is all its own. -/
theorem own_insert (h : d.own id = c.own id) (r : Rule) :
    ({ d with rules := d.rules.insert id r } : Checker).own id =
      ({ c with rules := c.rules.insert id r } : Checker).own id := by
  obtain ⟨hoptions, hregistry, -⟩ := Own.mk.inj h
  unfold own
  simp only [hoptions, hregistry, ExtTreeMap.getElem?_insert_self]

theorem rest_insert (c : Checker) (id : String) (r : Rule) :
    ({ c with rules := c.rules.insert id r } : Checker).rest id = c.rest id := by
  unfold rest
  congr 1
  funext k
  rw [Map.getElem?_insert]
  split_ifs with h h'
  · rfl
  · exact absurd h'.symm h
  · rfl

/-- The work is confined to a rule. -/
abbrev Confined (id : String) (x : Routine Checker α) (c : Checker) : Prop :=
  ConfinedAt (own id) (rest id) x c

theorem confined_of_does {x : Routine Checker α} {a : α} (h : ∀ c, Does x c a c) (id : String)
    (c : Checker) : Confined id x c := by
  intro b c' hok
  obtain ⟨rfl, hb⟩ := (h c).unique hok
  refine ⟨rest_eq_of_bare hb id, fun d hd => ?_⟩
  obtain ⟨d', hok', hb'⟩ := h d d rfl
  exact ⟨d', hok', by rw [own_eq_of_bare hb' id, hd, own_eq_of_bare hb id]⟩

theorem confined_onRule (id : String) (x : Routine Cycle α) (c : Checker) :
    Confined id (onRule id x) c := by
  intro a c' h
  unfold onRule at h
  split at h
  · cases h
  rename_i r hr
  split at h
  · rename_i cycle hok
    cases h
    refine ⟨rest_insert (absorb cycle c) id cycle.rule, fun d hd => ?_⟩
    have hrule : d.rules[id]? = some r := (congrArg Own.rule hd).trans hr
    refine ⟨{ absorb cycle d with rules := d.rules.insert id cycle.rule }, ?_, ?_⟩
    · unfold onRule
      rw [hrule]
      simp only [hok]
    · exact own_insert (c := absorb cycle c) (d := absorb cycle d) hd _
  · cases h

theorem confined_onNewRule (id : String) (r : Rule) (x : Routine Cycle Unit) (c : Checker) :
    Confined id (onNewRule r x) c := by
  intro a c' h
  unfold onNewRule at h
  split at h
  · rename_i cycle hok
    cases h
    refine ⟨rfl, fun d hd => ⟨absorb cycle d, ?_, hd⟩⟩
    unfold onNewRule
    rw [hok]
  · cases h

/-- **A batch that is checked** concerns nothing but its rule. -/
theorem confined_checkBatch (id : String) (batch : List Change) (c : Checker) :
    Confined id (checkBatch id batch) c := by
  refine confinedAt_get (fun d hd => ?_) ?_
  · rw [rule_eq_of_own hd, engine_eq_of_own hd, show d.options = c.options from congrArg Own.options hd]
  refine (confinedAt_ofExcept _ _).bind fun before c₁ _ => ?_
  refine (confined_of_does (does_enter _) id c₁).bind fun _ c₂ _ => ?_
  refine (confined_of_does (does_noteRebuilt before) id c₂).bind fun _ c₃ _ => ?_
  refine (confined_onRule id _ c₃).bind fun _ c₄ _ => ?_
  refine confinedAt_get (fun d hd => by rw [rule_eq_of_own hd]) ?_
  refine (confinedAt_ofExcept _ _).bind fun r c₅ _ => ?_
  -- What is left only keeps the accounts.
  exact confined_of_does (fun c => (does_noteAborted r c).bind ((does_count _ _ c).bind
    ((does_count _ _ c).bind ((does_countFanOuts c).bind ((does_note _ _ c).bind
      (does_pure r.report c)))))) id c₅

/-- **A rule that is registered** concerns nothing but itself. -/
theorem confined_addRule (s : Sentence) (facts : List Change) (c : Checker) :
    Confined s.rule (addRule s facts) c := by
  refine confinedAt_get (fun d hd => ?_) ?_
  · have hrule : d.rules[s.rule]? = c.rules[s.rule]? := congrArg Own.rule hd
    rw [ExtTreeMap.contains_eq_isSome_getElem?, ExtTreeMap.contains_eq_isSome_getElem?, hrule,
      engine_eq_of_own hd]
  split_ifs
  · exact (confinedAt_throw _ _).bind fun _ _ h => nomatch h
  refine (confined_onNewRule _ _ _ c).bind fun r c₁ h => ?_
  have hid : r.id = s.rule := by
    unfold onNewRule at h
    split at h
    · rename_i cycle hok
      cases h
      exact congrArg (fun s : Sentence => s.rule) ((Rule.lasts_cycle _ _ _).ok hok)
    · cases h
  refine (confined_of_does (does_noteAborted r) _ c₁).bind fun _ c₂ _ => ?_
  refine (confined_of_does (does_note _ _) _ c₂).bind fun _ c₃ _ => ?_
  rw [hid]
  exact (confinedAt_modify (rest_insert c₃ s.rule r) fun d hd => own_insert hd r).bind
    fun _ _ _ => confinedAt_pure _ _

/-- **A replacement** concerns nothing but its rule. -/
theorem confined_replace (r : Replacement) (c : Checker) : Confined r.rule (replace r) c :=
  confined_onRule r.rule _ c

theorem rule_of_probe {pattern : String} {del add : Context} {rep : Replacement}
    (h : c.probe id pattern del add = .ok (some rep)) :
    ∃ r, c.rules[id]? = some r ∧ rep.rule = r.id := by
  unfold probe withSetting rule at h
  cases hr : c.rules[id]? with
  | none =>
    rw [hr] at h
    cases h
  | some r =>
  refine ⟨r, rfl, ?_⟩
  rw [hr] at h
  obtain ⟨k, h⟩ := exists_of_value (x := Setting.probe _ r.tree pattern del add) h
  unfold Setting.probe at h
  generalize (Option.bind _ _) = found at h
  match found with
  | some (.quantified _ q body) =>
    dsimp only at h
    split_ifs at h
    · cases h
    · obtain ⟨branches, k₁, -, h⟩ := bind_eq_ok.mp h
      match branches with
      | none => cases h
      | some [] => cases h
      | some (_ :: _) =>
        cases h
        rfl
  | none | some (.binary ..) | some (.negation ..) | some (.application ..) => cases h

end Checker

end RuleMonitor
