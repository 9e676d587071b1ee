import BlockchainCrypto.Chain.Acceptance
import BlockchainCrypto.Chain.Agreement
import BlockchainCrypto.Chain.BalanceRange
import BlockchainCrypto.Chain.Blockchain
import BlockchainCrypto.Chain.Difficulty
import BlockchainCrypto.Chain.Histories
import BlockchainCrypto.Chain.Ledger
import BlockchainCrypto.Chain.Mining
import BlockchainCrypto.Chain.NoReplay
import BlockchainCrypto.Chain.Persistence
import BlockchainCrypto.Chain.Replay
import BlockchainCrypto.Chain.RoundTrip
import BlockchainCrypto.Chain.Supply
import BlockchainCrypto.Chain.Timing
import BlockchainCrypto.Chain.TornFiles
import BlockchainCrypto.Chain.Validity
import BlockchainCrypto.Cli.OwnFiles
import BlockchainCrypto.Cli.Payments
import BlockchainCrypto.Cli.Session
import BlockchainCrypto.Core.Block
import BlockchainCrypto.Core.MerkleBinding
import BlockchainCrypto.Core.Money
import BlockchainCrypto.Core.MoneyText
import BlockchainCrypto.Core.Preimages
import BlockchainCrypto.Core.SignatureText
import BlockchainCrypto.Core.SignedPayment
import BlockchainCrypto.Core.Transaction
import BlockchainCrypto.Core.Utils
import BlockchainCrypto.Crypto.BigInt
import BlockchainCrypto.Crypto.BigIntCanonical
import BlockchainCrypto.Crypto.BigIntDigit
import BlockchainCrypto.Crypto.BigIntDivision
import BlockchainCrypto.Crypto.BigIntInverse
import BlockchainCrypto.Crypto.BigIntRing
import BlockchainCrypto.Crypto.BigIntText
import BlockchainCrypto.Crypto.Compression
import BlockchainCrypto.Crypto.CurveGroup
import BlockchainCrypto.Crypto.ECCrypto
import BlockchainCrypto.Crypto.ECPoint
import BlockchainCrypto.Crypto.Encoding
import BlockchainCrypto.Crypto.Jacobian
import BlockchainCrypto.Crypto.KeyPairs
import BlockchainCrypto.Crypto.LimbCurve
import BlockchainCrypto.Crypto.LimbSignatures
import BlockchainCrypto.Crypto.NonceReuse
import BlockchainCrypto.Crypto.PublicKeys
import BlockchainCrypto.Crypto.Schnorr
import BlockchainCrypto.Crypto.Secp256k1
import BlockchainCrypto.Crypto.Sha256
import BlockchainCrypto.Crypto.Sha256Standard
import BlockchainCrypto.Network.BlockRequests
import BlockchainCrypto.Network.CatchUp
import BlockchainCrypto.Network.Dialling
import BlockchainCrypto.Network.Dissemination
import BlockchainCrypto.Network.Frames
import BlockchainCrypto.Network.Framing
import BlockchainCrypto.Network.Gossip
import BlockchainCrypto.Network.Handshake
import BlockchainCrypto.Network.KnownBlocks
import BlockchainCrypto.Network.Ledgers
import BlockchainCrypto.Network.LostPeers
import BlockchainCrypto.Network.NodeIds
import BlockchainCrypto.Network.OneConnection
import BlockchainCrypto.Network.P2PNode
import BlockchainCrypto.Network.Payloads
import BlockchainCrypto.Network.PeerLimit
import BlockchainCrypto.Network.PeerLists
import BlockchainCrypto.Network.PeerTable
import BlockchainCrypto.Network.Receiving
import BlockchainCrypto.Network.Relay
import BlockchainCrypto.Network.RemovedPeers
import BlockchainCrypto.Network.Replication
import BlockchainCrypto.Network.Sending
import BlockchainCrypto.Network.Serializers
import BlockchainCrypto.Network.Shutdown
import BlockchainCrypto.Network.Slots
import BlockchainCrypto.Network.Sync
import BlockchainCrypto.Network.SyncState
import BlockchainCrypto.Network.Unannounced
import BlockchainCrypto.Network.WireText
import BlockchainCrypto.Text.Bytes
import BlockchainCrypto.Text.Delimited
import BlockchainCrypto.Text.Extraction
import BlockchainCrypto.Text.FixedWidth
import BlockchainCrypto.Text.Lines
import BlockchainCrypto.Text.Torn
import BlockchainCrypto.Theory.Accounts
import BlockchainCrypto.Theory.AppendLog
import BlockchainCrypto.Theory.CheckedLoops
import BlockchainCrypto.Theory.Fips180
import BlockchainCrypto.Theory.Flooding
import BlockchainCrypto.Theory.HashTree
import BlockchainCrypto.Theory.KeyedHash
import BlockchainCrypto.Theory.LogCopies
import BlockchainCrypto.Theory.LongDivision
import BlockchainCrypto.Theory.Numerals
import BlockchainCrypto.Theory.Pocklington
import BlockchainCrypto.Theory.Pruning
import BlockchainCrypto.Theory.Ranks
import BlockchainCrypto.Theory.Runs
import BlockchainCrypto.Theory.Significand
import BlockchainCrypto.Theory.StreamParser
import BlockchainCrypto.Theory.Threads
import BlockchainCrypto.Wallet.KeyControl
import BlockchainCrypto.Wallet.KeyDerivation
import BlockchainCrypto.Wallet.Keystore
import BlockchainCrypto.Wallet.Signing
import BlockchainCrypto.Wallet.Wallet
import BlockchainCrypto.Wallet.WalletFile
