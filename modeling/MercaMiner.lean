import MercaMiner.Basis.Chunks
import MercaMiner.Basis.CompactSize
import MercaMiner.Basis.Counters
import MercaMiner.Basis.CycleWalk
import MercaMiner.Basis.Decimal
import MercaMiner.Basis.Fips180
import MercaMiner.Basis.Fips202
import MercaMiner.Basis.Fips202Hash
import MercaMiner.Basis.HashTree
import MercaMiner.Basis.Hex
import MercaMiner.Basis.HexNumber
import MercaMiner.Basis.Lines
import MercaMiner.Basis.LittleEndian
import MercaMiner.Basis.Loop
import MercaMiner.Basis.Memory
import MercaMiner.Basis.Outcome
import MercaMiner.Basis.ParityMix
import MercaMiner.Basis.Ranking
import MercaMiner.Basis.Rotation
import MercaMiner.Basis.ScriptNum
import MercaMiner.Basis.Tiling
import MercaMiner.Basis.Transition
import MercaMiner.Basis.TreeNodes
import MercaMiner.Basis.View
import MercaMiner.Basis.Wire
import MercaMiner.Core.BlockBuilder
import MercaMiner.Core.CandidateCalls
import MercaMiner.Core.CandidateMiner
import MercaMiner.Core.Coinbase
import MercaMiner.Core.Gbt
import MercaMiner.Core.Header
import MercaMiner.Core.Json
import MercaMiner.Core.Keccak
import MercaMiner.Core.Longpoll
import MercaMiner.Core.Mercahash.Arx
import MercaMiner.Core.Mercahash.Bind
import MercaMiner.Core.Mercahash.Diagnostics
import MercaMiner.Core.Mercahash.Hashers
import MercaMiner.Core.Mercahash.Mix
import MercaMiner.Core.Mercahash.Scratchpad
import MercaMiner.Core.Merkle
import MercaMiner.Core.MineLoop
import MercaMiner.Core.MinerConfig
import MercaMiner.Core.MiningJob
import MercaMiner.Core.Network
import MercaMiner.Core.NetworkTable
import MercaMiner.Core.ParallelMiner
import MercaMiner.Core.PayoutAddress
import MercaMiner.Core.Program
import MercaMiner.Core.Rpc
import MercaMiner.Core.RpcConnection
import MercaMiner.Core.Scanner
import MercaMiner.Core.Serialization
import MercaMiner.Core.Session
import MercaMiner.Core.Sha256
import MercaMiner.Core.Sha256Object
import MercaMiner.Core.Sha3
import MercaMiner.Core.Startup
import MercaMiner.Core.Submission
import MercaMiner.Core.Target
import MercaMiner.Core.UInt256
import MercaMiner.Theory.AccessTrace
import MercaMiner.Theory.ArxPermutation
import MercaMiner.Theory.BalancedPartition
import MercaMiner.Theory.BlockConsistency
import MercaMiner.Theory.BlockForm
import MercaMiner.Theory.BuildFailure
import MercaMiner.Theory.CandidateFrame
import MercaMiner.Theory.ChunkedScan
import MercaMiner.Theory.CoinbaseForm
import MercaMiner.Theory.CompactSize
import MercaMiner.Theory.ConfigFields
import MercaMiner.Theory.ConfigInterchange
import MercaMiner.Theory.CookieReload
import MercaMiner.Theory.DiagnosticCounts
import MercaMiner.Theory.DiagnosticHash
import MercaMiner.Theory.FirstTurn
import MercaMiner.Theory.HeightPrefix
import MercaMiner.Theory.HexAgreement
import MercaMiner.Theory.JobUniqueness
import MercaMiner.Theory.KeccakRound
import MercaMiner.Theory.LineOrder
import MercaMiner.Theory.LineUpdates
import MercaMiner.Theory.LongpollCoherence
import MercaMiner.Theory.LongpollRace
import MercaMiner.Theory.LoopAccounting
import MercaMiner.Theory.LoopPhases
import MercaMiner.Theory.MercahashDigests
import MercaMiner.Theory.MerkleTree
import MercaMiner.Theory.MineAccounting
import MercaMiner.Theory.MineInvariant
import MercaMiner.Theory.MineOutcome
import MercaMiner.Theory.MineProgress
import MercaMiner.Theory.MinedBlock
import MercaMiner.Theory.NoncePartition
import MercaMiner.Theory.PadIndependence
import MercaMiner.Theory.PayoutScript
import MercaMiner.Theory.ProgramSafety
import MercaMiner.Theory.ProgramShutdown
import MercaMiner.Theory.RpcClassification
import MercaMiner.Theory.ScanEquivalence
import MercaMiner.Theory.ScanExact
import MercaMiner.Theory.SessionClosing
import MercaMiner.Theory.SessionHashes
import MercaMiner.Theory.SessionSafety
import MercaMiner.Theory.SessionShutdown
import MercaMiner.Theory.SessionSteps
import MercaMiner.Theory.SessionWatcher
import MercaMiner.Theory.SessionWork
import MercaMiner.Theory.Sha256Rounds
import MercaMiner.Theory.Sha256Stream
import MercaMiner.Theory.Sha3Sponge
import MercaMiner.Theory.StartupSafety
import MercaMiner.Theory.SubmissionSafety
import MercaMiner.Theory.TargetValue
import MercaMiner.Theory.TemplateFacts
import MercaMiner.Theory.TemplateSafety
import MercaMiner.Theory.TurnEvents
import MercaMiner.Theory.UInt256Text
import MercaMiner.Theory.WorkerProgress
