import Siliqua.Base.KeyedStore
import Siliqua.Base.Splits
import Siliqua.Base.Journal
import Siliqua.Base.FirstCome
import Siliqua.Base.ByteDecoder
import Siliqua.Base.Codec
import Siliqua.Base.LittleEndian
import Siliqua.Base.BigEndian
import Siliqua.Base.Positional
import Siliqua.Base.Chunks
import Siliqua.Base.HashTree
import Siliqua.Base.RunningSum
import Siliqua.Base.ReplicatedLog
import Siliqua.Base.Simulation
import Siliqua.Base.Gossip
import Siliqua.Base.BlockFold
import Siliqua.Base.Search
import Siliqua.Crypto.Primitives
import Siliqua.Crypto.Picosha2
import Siliqua.Crypto.Streaming
import Siliqua.Core.Serializer
import Siliqua.Core.Transaction
import Siliqua.Core.Block
import Siliqua.Core.Codec
import Siliqua.Core.Merkle
import Siliqua.Wallet.Signing
import Siliqua.Wallet.Script
import Siliqua.Wallet.Ownership
import Siliqua.Wallet.Acceptance
import Siliqua.Wallet.Wallet
import Siliqua.Wallet.Preimage
import Siliqua.Wallet.Base58
import Siliqua.Consensus.Pow
import Siliqua.Consensus.Target
import Siliqua.Consensus.Work
import Siliqua.Consensus.Attempts
import Siliqua.Storage.Storage
import Siliqua.Storage.RoundTrip
import Siliqua.Network.Message
import Siliqua.Network.CommandLine
import Siliqua.Network.Node
import Siliqua.Network.Daemon
import Siliqua.Ledger.Fee
import Siliqua.Ledger.Replay
import Siliqua.Ledger.Sources
import Siliqua.Ledger.UtxoAgreement
import Siliqua.Ledger.Spends
import Siliqua.Ledger.Building
import Siliqua.Ledger.FastPath
import Siliqua.Ledger.Supply
import Siliqua.Ledger.Values
import Siliqua.Ledger.Conservation
import Siliqua.Ledger.CheckedAmounts
import Siliqua.Ledger.Overflow
import Siliqua.Ledger.Identity
import Siliqua.Ledger.Mining
import Siliqua.Ledger.Balance
import Siliqua.Ledger.Payment
import Siliqua.Ledger.Transfer
import Siliqua.Ledger.ExactPayment
import Siliqua.Ledger.DirectAccept
import Siliqua.Ledger.Integrity
import Siliqua.Ledger.ForkChoice
import Siliqua.Ledger.Retarget
import Siliqua.Ledger.Schedule
import Siliqua.Network.Robustness
import Siliqua.Network.Persistence
import Siliqua.Network.Startup
import Siliqua.Network.Tips
import Siliqua.Network.Frames
import Siliqua.Network.Socket
import Siliqua.Network.OneShot
import Siliqua.Network.Mempool
import Siliqua.Network.Serving
import Siliqua.Network.Pending
import Siliqua.Network.Session
import Siliqua.Network.SyncPaths
import Siliqua.Network.Exchange
import Siliqua.Network.Polling
import Siliqua.Network.Cluster
import Siliqua.Network.Spread
import Siliqua.Network.Origins
import Siliqua.Network.Hub
import Siliqua.Network.Quiet
import Siliqua.Network.Convergence
import Siliqua.Network.Completed
import Siliqua.Network.Sending
import Siliqua.Network.Listening
import Siliqua.Network.Commands
import Siliqua.Network.Settlement
import Siliqua.Network.Directory
