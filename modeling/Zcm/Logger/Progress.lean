import Zcm.Logger.Cycles

namespace Zcm.Logger
open Zcm.Lib Zcm.Eventlog

variable (args : Args) (sizeofLogEvent rounds : Nat)

variable {args sizeofLogEvent rounds} {s t : State}

section Runs

variable {dir : Dir} {o : Opening} {sends : Bool}

end Runs

end Zcm.Logger
