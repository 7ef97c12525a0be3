import Strangecoin.Supply
import Strangecoin.TransferRollback
import Strangecoin.ChainRollback
import Strangecoin.StatelessSoundness
import Strangecoin.FailedFrames
import Strangecoin.StorageCommitment
import Strangecoin.GenesisSafety
import Strangecoin.AbiRoundTrip
import Strangecoin.Cancellation
import Strangecoin.Ephemerals
import Strangecoin.PeerBans
import Strangecoin.PeerLocks
import Strangecoin.HonestRelay
import Strangecoin.SyncComplete
import Strangecoin.BlockTemplate
import Strangecoin.FreshPool
import Strangecoin.MedianTime
import Strangecoin.ReplacementLimit
import Strangecoin.GasConservation
import Strangecoin.StaticCalls
import Strangecoin.AnyPeerSync
import Strangecoin.StorageCap
