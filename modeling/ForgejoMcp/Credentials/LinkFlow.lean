import ForgejoMcp.Credentials.Refinement.System

/-!
# The link flow

A linking request is consumed at most once, so at most one code is exchanged for it, by the callback
that has consumed it: before it expired, and with the session, the instance and the configuration that
it was started with.  A callback that fails has changed no credential, and a credential that is saved
records the base URL and the client of the exchange.
-/

namespace ForgejoMcp.Credentials

open Transactions

variable {server : Server} {base : Db} {h : List (Entry sorts)} {e : Entry sorts} {t : ℕ}
  {c : Config sorts Call Raised Result} {g : Shared sorts} {flow : ForgejoOAuthRequest}

/-! ### Consumed requests -/

end ForgejoMcp.Credentials
