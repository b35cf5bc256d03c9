/-!
# Styles

On a terminal, words are told apart by weight and colour. Elsewhere text stays plain.

* `Style.paint`: a text in a style.
* `Styles.of`: the styles with or without colours.
-/

namespace RuleMonitor

/-- A way to show text, by the parameters of its terminal sequence; without them text is plain. -/
structure Style where
  parameters : Option String
deriving DecidableEq, Repr

/-- A text in a style. -/
def Style.paint (s : Style) (text : String) : String :=
  match s.parameters with
  | some p => "\x1b[" ++ p ++ "m" ++ text ++ "\x1b[0m"
  | none => text

/-- The styles of words. -/
structure Styles where
  /-- Words to be noticed. -/
  emphasis : Style
  /-- Good news. -/
  happy : Style
  /-- News that is not good. -/
  sad : Style
  /-- Bad news. -/
  bad : Style
deriving DecidableEq, Repr

/-- The styles with or without colours. -/
def Styles.of (colored : Bool) : Styles :=
  let style (parameters : String) : Style := ⟨if colored then some parameters else none⟩
  ⟨style "1", style "1;32", style "1;33", style "1;31"⟩

end RuleMonitor
