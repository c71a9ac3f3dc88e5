import Ltfs.Criteria

namespace Ltfs.PolicyOverride

open Criteria

variable (u8Next : Str → Int × Nat) (junk rules : Str)

variable {u8Next junk rules} {ic ic' : IndexCriteria} {e : Fault}

end Ltfs.PolicyOverride
