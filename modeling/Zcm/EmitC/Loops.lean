import Zcm.EmitC.Rows

namespace Zcm.EmitC
open Zcm.Lib Zcm.Gen Zcm.Coretypes
open Zcm.Cpp (items)

namespace State

/-- The state after so many bytes were copied. A loop variable n that they went to may be gone by now. -/
def counted (m : Member) (k : Nat) (st : State) : State :=
  if 14 < m.dimensions.length ∧ st.vars.length < 14 then st else st.addCount m k

variable {m : Member} {k : Nat} {n : Nat} {vars : List Int} {q : Storage}

end State

section Loop

variable {size : Int} {body : State → Except Fault State} {rounds : Nat} {n : Nat} {a : Int} {outer : List Int}
  {q : Storage}

variable {m : Member} {bytes : Value → Nat} {x : Storage} {row : List Value}

end Loop

end Zcm.EmitC
