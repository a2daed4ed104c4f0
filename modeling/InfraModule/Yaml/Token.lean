import InfraModule.Yaml.Cursor

/-!
# Tokens

The words and signs of a YAML text. Block collections, which are written by indentation alone, have
their own starts and ends among the tokens, and so do keys that no `?` introduces.
-/

namespace InfraModule.Yaml

/-- How a scalar is written. -/
inductive ScalarStyle where
  /-- Without any sign around it. -/
  | plain
  /-- Between single quotes. -/
  | singleQuoted
  /-- Between double quotes. -/
  | doubleQuoted
  /-- As a block of lines that are kept apart. -/
  | literal
  /-- As a block of lines that are folded together. -/
  | folded
  deriving DecidableEq, Inhabited

/-- A word or sign. -/
inductive Token where
  | streamStart
  | streamEnd
  | versionDirective
  | tagDirective (handle start : String)
  | documentStart
  | documentEnd
  | blockSequenceStart
  | blockMappingStart
  | blockEnd
  | flowSequenceStart
  | flowSequenceEnd
  | flowMappingStart
  | flowMappingEnd
  | blockEntry
  | flowEntry
  | key
  | value
  | alias (name : String)
  | anchor (name : String)
  | tag (handle suffix : String)
  | scalar (style : ScalarStyle) (text : String)
  deriving DecidableEq, Inhabited

/-- A token and its place. -/
structure PlacedToken where
  /-- The token. -/
  token : Token
  /-- Its place. -/
  place : Place
  deriving DecidableEq, Inhabited

end InfraModule.Yaml
