import RuleMonitor.Roster

/-!
# Random workloads

A workload is a stream of random changes over some patterns, each valid after the ones before it. One
half are additions of contexts with random attributes, three tenths deletions and one fifth updates
of a live context; without one to delete or update, a context is added.

The numbers come from a source that may draw any of those below a bound. The source of a seed is a
generator with four words of state: shifts and exclusive ors make each word from the ones before. The
words of the first state come from the seed by a linear congruence whose output is folded and rotated.
A number below a bound is drawn by multiplication, and drawn again where that would favour some numbers.

* `RandomSource`: numbers below a bound.
* `Generator.ofSeed`, `Generator.word`: the generator.
* `Generator.below32`, `Generator.below64`: its numbers below a bound.
* `Workload.start`: the stream of a seed.
* `Workload.change`, `Workload.changes`: the next changes.
-/

namespace RuleMonitor

open Std (ExtTreeMap)

/-- States from which random numbers are drawn. -/
class RandomSource (G : Type) where
  /-- A number below a positive one that fits in 32 bits. -/
  below32 : G → (n : Nat) → 0 < n → Fin n × G
  /-- A number below a positive one that fits in 64 bits. -/
  below64 : G → (n : Nat) → 0 < n → Fin n × G

/-- The state of the generator. -/
structure Generator where
  x : UInt32
  y : UInt32
  z : UInt32
  w : UInt32
deriving DecidableEq, Repr

namespace Generator

/-- The state of the linear congruence after a step. -/
def congruence (s : UInt64) : UInt64 :=
  s * 6364136223846793005 + 11634580027462260723

/-- The word that a state of the linear congruence gives. -/
def permute (s : UInt64) : UInt32 :=
  let folded := (((s >>> 18) ^^^ s) >>> 27).toUInt32
  let turn := (s >>> 59).toUInt32
  (folded >>> turn) ||| (folded <<< ((32 - turn) % 32))

/-- The generator of a seed. Its words must not all be zero. -/
def ofSeed (seed : UInt64) : Generator :=
  let s₁ := congruence seed
  let s₂ := congruence s₁
  let s₃ := congruence s₂
  let s₄ := congruence s₃
  let g : Generator := ⟨permute s₁, permute s₂, permute s₃, permute s₄⟩
  if g = ⟨0, 0, 0, 0⟩ then ⟨0x0BAD5EED, 0x0BAD5EED, 0x0BAD5EED, 0x0BAD5EED⟩ else g

/-- The next word. -/
def word (g : Generator) : UInt32 × Generator :=
  let t := g.x ^^^ (g.x <<< 11)
  let w := g.w ^^^ (g.w >>> 19) ^^^ t ^^^ (t >>> 8)
  (w, ⟨g.y, g.z, g.w, w⟩)

/-- The next two words, the first one being the lower half. -/
def doubleWord (g : Generator) : Nat × Generator :=
  let (low, g) := g.word
  let (high, g) := g.word
  (high.toNat * 4294967296 + low.toNat, g)

/-- The largest lower half of a product that is accepted for numbers of `bits` bits below `n`. -/
def zone (bits n : Nat) : Nat :=
  (n <<< (bits - 1 - n.log2)) - 1

/-- A number below `n` from numbers of `bits` bits; `draw` draws one of these. A draw is accepted with
a probability of more than one half. -/
def draw (bits n : Nat) (next : Generator → Nat × Generator) :
    (fuel : Nat) → Generator → Nat × Generator
  | 0, g => (0, g)
  | fuel + 1, g =>
    let (v, g) := next g
    let product := v * n
    if product % (1 <<< bits) ≤ zone bits n then (product >>> bits, g)
    else draw bits n next fuel g

/-- The number of draws after which one below a bound is given up. -/
def patience : Nat := 4096

/-- A number below `n` from one word. -/
def below32 (g : Generator) (n : Nat) : Nat × Generator :=
  draw 32 n (fun g => (g.word.1.toNat, g.word.2)) patience g

/-- A number below `n` from two words. -/
def below64 (g : Generator) (n : Nat) : Nat × Generator :=
  draw 64 n doubleWord patience g

/-- A number that is drawn is below the bound. -/
theorem draw_lt {bits n : Nat} {next : Generator → Nat × Generator} (hn : 0 < n)
    (hnext : ∀ g, (next g).1 < 1 <<< bits) (fuel : Nat) (g : Generator) :
    (draw bits n next fuel g).1 < n := by
  induction fuel generalizing g with
  | zero => exact hn
  | succ fuel ih =>
    have hproduct : ((next g).1 * n) >>> bits < n := by
      rw [Nat.shiftRight_eq_div_pow, Nat.div_lt_iff_lt_mul (Nat.two_pow_pos bits), Nat.mul_comm n,
        ← Nat.one_shiftLeft]
      exact Nat.mul_lt_mul_of_pos_right (hnext g) hn
    unfold draw
    dsimp only
    split
    · exact hproduct
    · exact ih _

theorem doubleWord_lt (g : Generator) : (doubleWord g).1 < 1 <<< 64 := by
  have low : g.word.1.toNat < 2 ^ 32 := g.word.1.toNat_lt
  have high : g.word.2.word.1.toNat < 2 ^ 32 := g.word.2.word.1.toNat_lt
  change g.word.2.word.1.toNat * 4294967296 + g.word.1.toNat < 1 <<< 64
  omega

instance : RandomSource Generator where
  below32 g n hn :=
    let drawn := g.below32 n
    (⟨drawn.1, draw_lt hn (fun g => g.word.1.toNat_lt) patience g⟩, drawn.2)
  below64 g n hn :=
    let drawn := g.below64 n
    (⟨drawn.1, draw_lt hn doubleWord_lt patience g⟩, drawn.2)

end Generator

/-- A stream of random changes. -/
structure Workload (G : Type) where
  generator : G
  /-- The patterns and their attributes, in order. -/
  patterns : List (String × List String)
  /-- Attributes are numbers below this one. -/
  values : Nat
  values_pos : 0 < values
  /-- The live contexts. -/
  roster : Roster

namespace Workload

/-- The stream of a seed, with values below a bound; below one they are zero. -/
def start (seed : Nat) (patterns : ExtTreeMap String (List String)) (values : Nat)
    (roster : Roster) : Workload Generator where
  generator := .ofSeed (.ofNat seed)
  patterns := patterns.toList
  values := max 1 values
  values_pos := Nat.lt_of_lt_of_le Nat.zero_lt_one (Nat.le_max_left 1 values)
  roster

variable {G : Type} [RandomSource G]

/-- Draws a number below `n`; there must be one. -/
def below (n : Nat) : Routine (Workload G) (Fin n) := do
  let w ← get
  if hn : 0 < n then
    let (k, generator) := RandomSource.below64 w.generator n hn
    set { w with generator }
    return k
  else throw (.crash (.text "cannot sample empty range"))

/-- Draws a number below ten. -/
def roll : Routine (Workload G) (Fin 10) := do
  let w ← get
  let (k, generator) := RandomSource.below32 w.generator 10 (Nat.zero_lt_succ 9)
  set { w with generator }
  return k

/-- Works on the live contexts. -/
def onRoster (x : Routine Roster Change) : Routine (Workload G) Change :=
  Routine.onPart (·.roster) (fun roster w => { w with roster }) x

/-- Draws a value for each attribute. -/
def attributes (values : Nat) : List String → Attributes → Routine (Workload G) Attributes
  | [], drawn => return drawn
  | name :: names, drawn => do
    let value ← below values
    attributes values names (drawn.insert name (toString value))

/-- Creates a context with random attributes. -/
def addition (pattern : String) (names : List String) : Routine (Workload G) Change := do
  let drawn ← attributes (← get).values names ∅
  onRoster (Roster.add pattern drawn)

/-- Gives a random attribute of a context a random value. -/
def update (id : Nat) (names : List String) : Routine (Workload G) Change := do
  let position ← below names.length
  let value ← below (← get).values
  onRoster (Roster.update id ((∅ : Attributes).insert names[position] (toString value)))

/-- The next change, if there is any pattern. -/
def change : Routine (Workload G) (Option Change) := do
  let w ← get
  if w.patterns.isEmpty then return none
  let position ← below w.patterns.length
  let (pattern, names) := w.patterns[position]
  let live := w.roster.liveIds pattern
  let roll ← roll
  if roll < 5 || live.isEmpty then return some (← addition pattern names)
  let position ← below live.length
  if roll < 8 || names.isEmpty then return some (← onRoster (Roster.remove live[position]))
  return some (← update live[position] names)

/-- The next `n` changes. -/
def changes : (n : Nat) → Routine (Workload G) (List Change)
  | 0 => return []
  | n + 1 => do
    match ← change with
    | some c => return c :: (← changes n)
    | none => return []

end Workload

end RuleMonitor
