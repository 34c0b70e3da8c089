import TrustNet.Chain.Flush
import TrustNet.Chain.Network
import TrustNet.Consensus.Arrival
import TrustNet.Consensus.Committed
import TrustNet.Consensus.Crash
import TrustNet.Consensus.Delta
import TrustNet.Consensus.Preimage
import TrustNet.Consensus.Relay
import TrustNet.Consensus.Snapshot
import TrustNet.Consensus.Sync
import TrustNet.Consensus.Timeout
import TrustNet.Consensus.Weight
import TrustNet.Consensus.Written
import TrustNet.CountrApp.Processor
import TrustNet.Network.Callback
import TrustNet.Network.CatchUp
import TrustNet.Network.Connection
import TrustNet.Network.Conservation
import TrustNet.Network.Custody
import TrustNet.Network.HashRequest
import TrustNet.Network.Hashes
import TrustNet.Network.HonestReward
import TrustNet.Network.Ledger
import TrustNet.Network.Overlap
import TrustNet.Network.PeerRegistry
import TrustNet.Network.Produced
import TrustNet.Network.Revalidate
import TrustNet.Network.Rtu
import TrustNet.Network.Transfer
import TrustNet.Network.Verdict
import TrustNet.Protocol.Delivery
import TrustNet.Trie.Failures
