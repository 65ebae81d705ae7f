import BurrowState.Storage.Bytes
import BurrowState.Storage.Prefix
import BurrowState.Storage.KVStore
import BurrowState.Storage.PrefixStore
import BurrowState.Storage.PrefixIterator
import BurrowState.Execution.KeyFormat
import BurrowState.Execution.RWTree
import BurrowState.Execution.State
import BurrowState.Execution.Reads
import BurrowState.Execution.Run
import BurrowState.Execution.Refinement
import BurrowState.Execution.Commit
import BurrowState.Execution.Blocks
import BurrowState.Execution.Copy
import BurrowState.Acm.Account
import BurrowState.Execution.Governance
import BurrowState.Execution.Options
import BurrowState.Execution.Isolation
import BurrowState.Rpc.Server
import BurrowState.Execution.Restart
import BurrowState.Deploy.Util
