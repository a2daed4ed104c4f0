/-!
# Written values

The value that an expression is written as: a document tree whose tags are kept. A mapping keeps
the order in which its keys came first.
-/

namespace InfraModule

/-- A value as it stands in a document. -/
inductive Written where
  /-- A text. -/
  | text (text : String)
  /-- An integer. -/
  | int (n : Int)
  /-- A truth value. -/
  | bool (b : Bool)
  /-- A sequence. -/
  | sequence (items : List Written)
  /-- A mapping from keys to values. -/
  | mapping (entries : List (String × Written))
  /-- A value under a tag. -/
  | tagged (tag : String) (value : Written)
  deriving Inhabited

namespace Written

/-- Sets a key of a mapping: a key that is there keeps its place, and a new one comes last. -/
def setKey (key : String) (value : Written) :
    List (String × Written) → List (String × Written)
  | [] => [(key, value)]
  | (k, v) :: entries =>
    if k = key then (k, value) :: entries else (k, v) :: setKey key value entries

/-- The mapping that results from setting keys one after the other. -/
def ofEntries (entries : List (String × Written)) : Written :=
  .mapping (entries.foldl (fun entries (key, value) => setKey key value entries) [])

end Written

end InfraModule
