import Canchain.StatePersist
import Canchain.CliqueEngine
import Canchain.EthashUncles
import Canchain.RlpTrees
import Canchain.TrieProof
import Canchain.RlpRoundTrip
import Canchain.EvmMemory
import Canchain.WrappedOffsets
import Canchain.TrieStored
import Canchain.TrieUntrusted
import Canchain.BitCompress
import Canchain.DatabaseSizes
import Canchain.RlpParsers
import Canchain.RlpReturns
import Canchain.SyncRecovery
import Canchain.CliqueTurns
import Canchain.GasLimit
import Canchain.HeaderChain
import Canchain.Blooms
import Canchain.DeriveSha
import Canchain.TxList
import Canchain.Signing
import Canchain.AbiPack
import Canchain.FlowControl
import Canchain.RandomNodes
import Canchain.AncestorSearch
