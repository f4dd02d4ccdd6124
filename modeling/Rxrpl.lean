import Rxrpl.LedgerSyncSoundness
import Rxrpl.SHAMapPersistence
import Rxrpl.ProposalBuffers
import Rxrpl.NegativeUnl
import Rxrpl.ValidationsTrie
import Rxrpl.DirectoryChain
import Rxrpl.BatchAuthority
import Rxrpl.DropsConservation
import Rxrpl.ValidationQuorum
import Rxrpl.ChannelProtocol
import Rxrpl.IOUSums
import Rxrpl.DelegateCascade
import Rxrpl.TxQueue
import Rxrpl.AmendmentVoting
import Rxrpl.SelfValidation
import Rxrpl.LedgerPruning
import Rxrpl.NFTokenRuns
import Rxrpl.SandboxOverlay
import Rxrpl.WrongParent
import Rxrpl.TransactionSets
import Rxrpl.SHAMapTraversal
import Rxrpl.FeeLevels
import Rxrpl.AddressForms
import Rxrpl.NoFreeze
import Rxrpl.PeerFrames
import Rxrpl.BinaryParser
import Rxrpl.BinaryRoundTrip
