import Cspn.TxTypes
import Cspn.LazyKeys
import Cspn.MnAbort
import Cspn.Backing
import Cspn.Payees
import Cspn.Supply
import Cspn.Failure
import Cspn.TxWire
import Cspn.Order
import Cspn.CoinsCache
import Cspn.LockFilter
import Cspn.NonLocked
import Cspn.MinedMarks
import Cspn.ChainLocks
import Cspn.ActiveChain
import Cspn.DkgBatch
import Cspn.SigningVotes
import Cspn.RecoveredSigs
import Cspn.DkgOrder
import Cspn.FinalCommitments
import Cspn.SigSafety
import Cspn.DbIterator
import Cspn.MinedMemo
import Cspn.MinableCommitments
import Cspn.Sporks
import Cspn.CheckMemo
import Cspn.PosIndex
import Cspn.Governance
import Cspn.StakeProof
import Cspn.Difficulty
import Cspn.Payouts
import Cspn.QuorumConnections
