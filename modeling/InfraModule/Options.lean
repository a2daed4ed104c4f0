/-!
# Options of reading a module
-/

namespace InfraModule

/-- What can be chosen about how a module is read. -/
structure Options where
  /-- The version of a module that declares none. -/
  defaultModuleVersion : String := "1.0-DEV"
  /-- How deep declarations and containers may be nested. -/
  maxDepth : Nat := 64
  /-- Whether references are bound to declarations once the module is read. -/
  linkReferences : Bool := true
  /-- Whether an item is reported and left out that has the name of an earlier sibling. -/
  enforceUniqueNames : Bool := true
  deriving DecidableEq, Inhabited

end InfraModule
