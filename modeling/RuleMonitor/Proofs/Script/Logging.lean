import RuleMonitor.Proofs.Facts.Deltas
import RuleMonitor.Proofs.Script.Reading

/-!
# The log of many texts

Texts are read one after the other, and some of them may not be read to their ends. All the same, the
changes among their items are a log from which the facts can be made anew: it replays on an empty store
without a failure, and comes to what is live.

* `Items.Accounted`: items account for what is declared.
* `Declarations.Log.named`, `Declarations.Log.added_eq`: names, and identities given out.
* `Declarations.parseAll`, **`Declarations.parseAll_accounted`**: the items of many texts.
-/

namespace RuleMonitor

open Std (ExtTreeMap)

/-! ## Items that account for what is declared -/

/-- The identities of the contexts that are added. -/
def Items.added (items : List Item) : List Nat :=
  ((items.filterMap Item.change?).filter (·.kind = .addition)).map Change.id

theorem Items.added_append (items items' : List Item) :
    added (items ++ items') = added items ++ added items' := by
  unfold added
  rw [List.filterMap_append, List.filter_append, List.map_append]

/-- Items account for what is declared. -/
structure Items.Accounted (items : List Item) (d : Declarations) : Prop where
  /-- The changes apply to an empty store one after the other, and come to the snapshot of the roster. -/
  replays : ∃ store, FactStore.applyBatch (items.filterMap Item.change?) {} = .ok () store ∧
    ∀ p id c, store.get? p id = some c ↔ c.id = id ∧ ⟨.addition, p, c⟩ ∈ d.roster.snapshot
  /-- Identities of contexts that are added ascend. -/
  ascending : (added items).Pairwise (· < ·)
  /-- Critical contexts are live where they are named. -/
  critical : ∀ pre ids post, items = pre ++ .critical ids :: post →
    ∃ store, FactStore.applyBatch (pre.filterMap Item.change?) {} = .ok () store ∧
      ∀ id ∈ ids, ∃ p, store.contains p id = true
  /-- Changes are those of declared patterns. -/
  declared : ∀ c, .change c ∈ items → d.patterns.contains c.pattern = true

namespace Declarations

variable {d d₁ d' : Declarations} {items : List Item} {P : Pools}

/-- The items of texts that are read one after the other, each of which follows some lines, and what is
declared after them. -/
def parseAll (d : Declarations) : List (List Char × Nat) → List Item × Declarations
  | [] => ([], d)
  | (text, lineOffset) :: rest =>
    let parsed := d.parse text lineOffset
    let (items, d') := parsed.declarations.parseAll rest
    (parsed.items ++ items, d')

theorem parseAll_logs (texts : List (List Char × Nat)) : ∀ d : Declarations,
    d.Log (d.parseAll texts).1 (d.parseAll texts).2 := by
  induction texts with
  | nil => exact .nil
  | cons entry rest ih => exact fun d => (d.parse_logs entry.1 entry.2).1.trans (ih _)

/-! ## What a log keeps -/

theorem Step.contains {found : Option Item} (h : d.Step found d₁) {p : String}
    (hp : d.patterns.contains p = true) : d₁.patterns.contains p = true := by
  cases h with
  | pattern => exact ExtTreeMap.contains_insert.trans (by rw [hp, Bool.or_true])
  | rule | change | critical | check => exact hp

theorem Step.declared {c : Change} (h : d.Step (some (.change c)) d₁) :
    d.patterns.contains c.pattern = true := by
  cases h with
  | change hp _ => exact hp

theorem Log.contains (h : d.Log items d') {p : String} (hp : d.patterns.contains p = true) :
    d'.patterns.contains p = true := by
  induction h with
  | nil => exact hp
  | cons hstep _ ih => exact ih (hstep.contains hp)

/-- **Names are found** under contexts that have them. -/
theorem Log.named (h : d.Log items d') (hP : d.roster.Holds P) (hn : d.roster.Named) :
    d'.roster.Named := by
  induction h generalizing P with
  | nil => exact hn
  | cons hstep _ ih =>
    cases hstep with
    | change _ hmoves => exact ih (hP.moves hmoves).2 (hn.moves hP hmoves)
    | pattern | rule | critical | check => exact ih hP hn

theorem Step.added_eq {found : Option Item} (h : d.Step found d₁) :
    d.roster.next ≤ d₁.roster.next ∧ Items.added found.toList = List.Ico d.roster.next d₁.roster.next := by
  cases h with
  | change _ hmoves => exact hmoves.added_eq
  | pattern | rule | critical | check => exact ⟨Nat.le_refl _, List.Ico.self_empty.symm⟩

/-- **Identities** are given out in order, and none is left out. -/
theorem Log.added_eq (h : d.Log items d') :
    d.roster.next ≤ d'.roster.next ∧ Items.added items = List.Ico d.roster.next d'.roster.next := by
  induction h with
  | nil => exact ⟨Nat.le_refl _, List.Ico.self_empty.symm⟩
  | cons hstep _ ih =>
    obtain ⟨hle, heq⟩ := hstep.added_eq
    refine ⟨hle.trans ih.1, ?_⟩
    rw [Items.added_append, heq, ih.2, List.Ico.append_consecutive hle ih.1]

/-! ## Replaying a log -/

theorem Log.replays (h : ({} : Declarations).Log items d) :
    ∃ store, FactStore.applyBatch (items.filterMap Item.change?) {} = .ok () store ∧
      d.roster.Holds store.pools := by
  obtain ⟨Q, hQ, hr⟩ := h.leads ∅ Roster.holds_empty
  obtain ⟨store, hstore, rfl, -⟩ :=
    FactStore.applyBatch_ok (FactStore.separatedFrom_of_deltas_eq (s := {}) rfl) Pools.keyed_empty hQ
  exact ⟨store, hstore, hr⟩

theorem Log.accounted (h : ({} : Declarations).Log items d) : Items.Accounted items d where
  replays := by
    obtain ⟨store, hstore, hr⟩ := h.replays
    exact ⟨store, hstore, fun p id c => hr.live?_iff_mem_snapshot⟩
  ascending := h.added_eq.2 ▸ List.Ico.pairwise_lt _ _
  critical pre ids post heq := by
    obtain ⟨d₁, d₂, hpre, hstep, -⟩ := h.exists_step heq
    obtain ⟨store, hstore, hr⟩ := hpre.replays
    refine ⟨store, hstore, fun id hid => ?_⟩
    cases hstep with
    | critical hnames =>
      obtain ⟨name, hname⟩ := hnames id hid
      obtain ⟨p, c, hc, -⟩ := hpre.named Roster.holds_empty Roster.named_empty name id hname
      have hlive : store.pools.live? p id = some c := (hr.live p id c).mpr hc
      exact ⟨p, (Pools.contains_pool _ _ _).trans (by rw [hlive, Option.isSome_some])⟩
  declared c hc := by
    obtain ⟨pre, post, heq⟩ := List.append_of_mem hc
    obtain ⟨d₁, d₂, -, hstep, hpost⟩ := h.exists_step heq
    exact hpost.contains (hstep.contains hstep.declared)

/-- **The items of texts** that are read one after the other, to their ends or not, account for what is
declared after them; and a change is read only where its pattern was declared before. -/
theorem parseAll_accounted (texts : List (List Char × Nat)) :
    Items.Accounted (({} : Declarations).parseAll texts).1 (({} : Declarations).parseAll texts).2 ∧
      ∀ (p : Parser) (c : Change) (p' : Parser), Parser.item p = .ok (some (.change c)) p' →
        p.declarations.patterns.contains c.pattern = true :=
  ⟨(parseAll_logs texts {}).accounted, fun _ _ _ h =>
    ((Parser.reads_item (C := fun _ => True)).ok h trivial).2.declared⟩

end Declarations

namespace Sample

/-- The first text ends in an item that is not closed, the second one in an update of what is not live. -/
def texts : List (List Char × Nat) :=
  [("(pattern sensor) (+ sensor a) (critical a".toList, 0),
    ("(- sensor a) (+ sensor b) (~ sensor a (state on))".toList, 1)]

/-- What is read from the texts. -/
def read : List Item × Declarations :=
  ({} : Declarations).parseAll texts

/-- A script in which a change comes next. -/
def reader : Parser :=
  { declarations := read.2, cursor := .start "+ sensor c)".toList 0 }

/-- The change that comes next. -/
def added : Change :=
  ⟨.addition, "sensor", ⟨2, ExtTreeMap.ofList [("name", "c")]⟩⟩

end Sample

theorem Declarations.parseAll_accounted_sample :
    Items.Accounted Sample.read.1 Sample.read.2 ∧ Items.added Sample.read.1 = [0, 1] ∧
      .critical [0] ∈ Sample.read.1 ∧ Sample.read.2.roster.size = 1 ∧
      ∃ p', Parser.item Sample.reader = .ok (some (.change Sample.added)) p' ∧
        Sample.reader.declarations.patterns.contains Sample.added.pattern = true := by
  obtain ⟨haccounted, hdeclared⟩ := parseAll_accounted Sample.texts
  have hread : Items.added Sample.read.1 = [0, 1] ∧ .critical [0] ∈ Sample.read.1 ∧
      Sample.read.2.roster.size = 1 ∧ Parser.item.value Sample.reader = .ok (some (.change Sample.added)) := by
    rw [Sample.reader, Sample.read, Sample.texts, String.toList_ofList, String.toList_ofList]
    decide +kernel
  obtain ⟨hadded, hcritical, hsize, hitem⟩ := hread
  obtain ⟨p', hp'⟩ := Routine.exists_of_value hitem
  exact ⟨haccounted, hadded, hcritical, hsize, p', hp', hdeclared _ _ p' hp'⟩

end RuleMonitor
