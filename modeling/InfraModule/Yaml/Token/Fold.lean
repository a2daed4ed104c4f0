import InfraModule.Yaml.Token.Basic

/-!
# Folding lines

Inside a plain or quoted scalar, blanks within a line stand for themselves, while a line end and the
blanks around it are folded: one line feed counts as a space, and of several line ends the first is
dropped if it is a line feed.
-/

namespace InfraModule.Yaml

/-- What was passed since the last word of a scalar. -/
structure Fold where
  /-- The blanks before any line end. -/
  blanks : String := ""
  /-- The first line end. -/
  firstBreak : String := ""
  /-- The further line ends. -/
  breaks : String := ""

/-- The text that blanks and line ends stand for, where `folded` says that a line has ended. -/
def Fold.text (f : Fold) (folded : Bool) : String :=
  if folded then
    if f.firstBreak != "\n" then f.firstBreak ++ f.breaks
    else if f.breaks.isEmpty then " "
    else f.breaks
  else f.blanks

namespace TokenM

/-- Adds a line end to a fold; `folded` says that a line has ended before. -/
def foldBreak (f : Fold) (folded : Bool) : TokenM Fold := do
  if folded then return { f with breaks := ← readBreak f.breaks }
  else return { f with blanks := "", firstBreak := ← readBreak f.firstBreak }

end TokenM

end InfraModule.Yaml
