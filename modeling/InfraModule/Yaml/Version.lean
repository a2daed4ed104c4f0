/-!
# Versions of YAML

Texts are read by the rules of version 1.1 or of version 1.2. What the two have in common is written
once; where they part, the version that a cursor carries decides.
-/

namespace InfraModule.Yaml

/-- The rules that a text follows. -/
inductive Version where
  | v11
  | v12
  deriving DecidableEq, Inhabited

namespace Version

/-- Whether a comment must be set off by a blank. -/
def spacesComments : Version → Bool
  | .v11 => false
  | .v12 => true

/-- Whether the lines in quotes and flow collections must be indented like the block around them. -/
def indentsInside : Version → Bool
  | .v11 => false
  | .v12 => true

/-- Whether a key in a flow collection may be of any length and take several lines. -/
def freesFlowKeys : Version → Bool
  | .v11 => false
  | .v12 => true

/-- Whether a colon may stand without a key before it. -/
def allowsNoKey : Version → Bool
  | .v11 => false
  | .v12 => true

end Version

end InfraModule.Yaml
