import Didux.Sport.Authentication
import Didux.Sport.CommittedSeal
import Didux.Sport.Agreement
import Didux.Sport.Rotation
import Didux.Sport.Timer
import Didux.Sport.RoundProgress
import Didux.Sport.Backlog
import Didux.Backend.EmptyVote
import Didux.Backend.Timestamps
import Didux.Backend.Delivery
import Didux.Backend.HeaderList
import Didux.Chain.HeaderChain
import Didux.Chain.LoadLastState
import Didux.Chain.PoolReset
import Didux.Vm.ReadOnly
import Didux.Vm.CodeInspection
import Didux.Core.VaultAccess
import Didux.Core.Signing
import Didux.Miner.Prefetch
import Didux.Miner.Commit
import Didux.Miner.PriceOrder
import Didux.Trie.Proof
import Didux.Rawdb.Discard
import Didux.Filters.Archive
import Didux.Filters.Bitutil
import Didux.Rawdb.BlockStore
