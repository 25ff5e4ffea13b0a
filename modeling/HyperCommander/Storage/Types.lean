import HyperCommander.Lib.Bytes
import HyperCommander.Lib.OrdMap

/-!
# Values of the storage boundary (`commonLibs/storage/storage.hpp`)

Strings are byte strings, compared byte by byte as `std::string` compares them.
-/

namespace Hc.Storage

/-- `std::string`. -/
abbrev Str := List UInt8

scoped instance linearOrderUInt8 : LinearOrder UInt8 := Bytes.linearOrderUInt8

/-- `std::to_string`. -/
def toString_ (n : Nat) : Str := (Nat.toDigits 10 n).map fun c => c.toNat.toUInt8

/-- `ErrorCategory`. -/
inductive ErrorCategory
  | invalidRequest
  | notFound
  | accessDenied
  | unavailable
  | cancelled
  | staleRevision
  | unsupported
  | budgetExceeded
  | internal
deriving DecidableEq, Repr

/-- `Error`. -/
structure Error where
  category : ErrorCategory := .internal
  code : String
  retryable : Bool := false
deriving DecidableEq, Repr

/-- `LocatorKind`. -/
inductive LocatorKind
  | local_
  | shell
  | smb
  | archive
  | plugin
deriving DecidableEq, Repr

/-- `ContainerHop`. -/
structure ContainerHop where
  provider : Str
  entry : Str
deriving DecidableEq, Repr

/-- `Locator`. -/
structure Locator where
  kind : LocatorKind := .local_
  root : Str
  nesting : List ContainerHop := []
deriving DecidableEq, Repr

end Hc.Storage
