import Safeos.Lib.Run
import Safeos.Lib.Table
import Safeos.Name
import Safeos.Asset
import Safeos.Token
import Safeos.Proofs.TokenInv
import Safeos.Staking
import Safeos.Proofs.StakingInv
import Safeos.Auth.Authority
import Safeos.Auth.Checker
import Safeos.Auth.Ideal
import Safeos.Proofs.CheckerIdeal
import Safeos.Auth.Native
import Safeos.Proofs.PermissionInv
import Safeos.Lib.OrderStat
import Safeos.Chain.BlockHeaderState
import Safeos.Proofs.HeaderStateInv
import Safeos.Chain.ForkDatabase
import Safeos.Chain.Controller
import Safeos.Chain.ApplyContext
import Safeos.Proofs.DatabaseSpec
import Safeos.Proofs.TableInv
import Safeos.Proofs.RamBilling
import Safeos.Proofs.DeferredInv
import Safeos.Proofs.NameCodec
import Safeos.Chain.ResourceLimits
import Safeos.Proofs.UsageAccumulator
import Safeos.Proofs.LimitTotals
import Safeos.Chain.TransactionContext
import Safeos.Proofs.ConfirmCount
import Safeos.Lib.ParentLinks
import Safeos.Proofs.ForkGraph
import Safeos.Varint
import Safeos.Proofs.VarintCodec
import Safeos.Chain.Symbol
import Safeos.Proofs.SymbolParse
import Safeos.Lib.ListLex
import Safeos.Proofs.NameOrder
import Safeos.Types
import Safeos.Proofs.NameSuffix
import Safeos.NameBids
import Safeos.Proofs.NameBidsInv
import Safeos.Jit
import Safeos.Proofs.JitInv
import Safeos.Lib.Pointers
import Safeos.Voting
import Safeos.Proofs.VotingInv
import Safeos.Lib.PairLevels
import Safeos.Chain.Merkle
import Safeos.Proofs.MerkleRefine
import Safeos.Lib.Neighbors
import Safeos.Chain.IteratorCache
import Safeos.Proofs.IteratorCacheInv
import Safeos.Proofs.KeyValueOrder
import Safeos.Msig
import Safeos.Proofs.MsigInv
import Safeos.Chain.Dispatch
import Safeos.Proofs.DispatchInv
