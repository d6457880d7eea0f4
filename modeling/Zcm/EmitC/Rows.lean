import Zcm.EmitC.Clonable

namespace Zcm.EmitC
open Zcm.Lib Zcm.Gen Zcm.Coretypes
open Zcm.Cpp (items)

section Rows

variable {clone : String → Storage → Storage → Except Fault (Nat × Storage)}
  {bytes : String → List Value → Nat} {conforms clonable : String → List Value → Prop}

end Rows

section Scopes

variable {scope : Scope}

def Sized (scope : Scope) (ds : List Dimension) : Prop := ∀ name, .var name ∈ ds → (scope.lookup name).isSome

end Scopes

end Zcm.EmitC
