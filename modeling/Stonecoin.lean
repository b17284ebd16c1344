import Stonecoin.CoinsStack
import Stonecoin.IndexRestore
import Stonecoin.IndexRuns
import Stonecoin.ForgedVotes
import Stonecoin.SporkRuns
import Stonecoin.EarlyVotes
import Stonecoin.VoteReferences
import Stonecoin.LockAgreement
import Stonecoin.EarlyLockVotes
import Stonecoin.ForgedAnnouncements
import Stonecoin.IndexRebuilds
import Stonecoin.FinalTransaction
import Stonecoin.MixingSignatures
import Stonecoin.SuperblockTriggers
import Stonecoin.MerkleMutation
import Stonecoin.BlockFiles
import Stonecoin.CoinFormat
import Stonecoin.LockPoints
import Stonecoin.ScriptFlags
import Stonecoin.SigOpBounds
import Stonecoin.ScriptLocks
import Stonecoin.PaymentScripts
import Stonecoin.SignatureEncoding
import Stonecoin.DarkGravityWave
import Stonecoin.AddressReads
import Stonecoin.InputChecks
import Stonecoin.SignatureHash
import Stonecoin.ChainWork
import Stonecoin.SkipList
import Stonecoin.Locators
import Stonecoin.BlockSubsidy
import Stonecoin.HashSelection
import Stonecoin.PartialMerkleProofs
import Stonecoin.VersionBits
import Stonecoin.OrphanExpiry
import Stonecoin.ObjectCopies
import Stonecoin.LastPaid
import Stonecoin.RecoveryQuorum
import Stonecoin.SameAddr
import Stonecoin.MixingOffences
import Stonecoin.LimitedMap
import Stonecoin.OrphanTransactions
import Stonecoin.PaymentSchedules
import Stonecoin.MerkleBranches
import Stonecoin.AddrDB
import Stonecoin.BloomMatches
import Stonecoin.FixedPointArithmetic
import Stonecoin.StrEncodings
import Stonecoin.CoinSelection
import Stonecoin.DenominatedInputs
import Stonecoin.MixingDepth
import Stonecoin.BlockAssembly
import Stonecoin.TimeData
import Stonecoin.CheckQueueRounds
import Stonecoin.Base58Text
import Stonecoin.VarInts
import Stonecoin.RateBuffers
import Stonecoin.BaseUints
import Stonecoin.NetSending
import Stonecoin.MemPoolRuns
