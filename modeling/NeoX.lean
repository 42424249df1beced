import NeoX.Node.Agreement
import NeoX.Validator.SealSoundness
import NeoX.Validator.CatchUp
import NeoX.Validator.Atomicity
import NeoX.Node.DkgRebuild
import NeoX.Node.FutureMessages
import NeoX.Node.DescendantSync
import NeoX.Node.TotalDifficulty
import NeoX.Node.TransactionSync
import NeoX.AntiMev.ShareRecovery
import NeoX.Node.Totality
import NeoX.Node.DkgTransaction
import NeoX.Node.PayloadCodecs
import NeoX.Node.PoolPolicy
import NeoX.Network.ForkFilter
import NeoX.Network.PeerRegistry
import NeoX.Node.SolidityBytes
import NeoX.Node.Completion
import NeoX.Node.Activation
import NeoX.Node.Timer
