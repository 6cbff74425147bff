import MaryJaneCoin.Chain.ConnectInverse
import MaryJaneCoin.Chain.MoneySupply
import MaryJaneCoin.Chain.OrphanRun
import MaryJaneCoin.Chain.RelayRules
import MaryJaneCoin.Mw.MmrInclusion
import MaryJaneCoin.Mw.StateRun
import MaryJaneCoin.Mw.WalletChain
import MaryJaneCoin.Mw.WalletPersist
import MaryJaneCoin.Net.StemNetwork
import MaryJaneCoin.PayJoin.ReceiverSafety
import MaryJaneCoin.PayJoin.SenderSafety
import MaryJaneCoin.Store.TxnOverlay
import MaryJaneCoin.Wallet.KeyReservations
import MaryJaneCoin.Chain.BlockTarget
import MaryJaneCoin.Chain.KernelTotals
import MaryJaneCoin.Chain.TierClasses
import MaryJaneCoin.Mw.CutThrough
import MaryJaneCoin.Mw.FailedLoad
import MaryJaneCoin.Mw.ProofVerify
import MaryJaneCoin.Net.MessagesArrive
import MaryJaneCoin.Store.StorageTamper
import MaryJaneCoin.Wallet.KeyLookups
import MaryJaneCoin.Wallet.StealthArrival
import MaryJaneCoin.Net.AddrManRun
import MaryJaneCoin.Chain.BlockByHeight
import MaryJaneCoin.Chain.StakeModifier
import MaryJaneCoin.Mw.BlockHash
import MaryJaneCoin.Net.OrphanMaps
import MaryJaneCoin.Spv.MerkleBranch
import MaryJaneCoin.Chain.ConditionalScript
import MaryJaneCoin.Chain.SigWork
import MaryJaneCoin.Wallet.ReorderTransactions
import MaryJaneCoin.Wallet.MultiSendRun
import MaryJaneCoin.Wallet.StakeReward
import MaryJaneCoin.Wallet.WalletGroupings
import MaryJaneCoin.Wallet.WalletRepair
import MaryJaneCoin.Chain.CanonicalSignature
import MaryJaneCoin.Chain.ScriptEncoding
import MaryJaneCoin.Net.StreamQueue
import MaryJaneCoin.Wallet.Amount
import MaryJaneCoin.Wallet.AddressText
import MaryJaneCoin.Chain.BlockLocator
import MaryJaneCoin.Chain.Bootstrap
import MaryJaneCoin.Chain.JustCheck
import MaryJaneCoin.Net.ClientAllowed
import MaryJaneCoin.Net.RelayLifetime
import MaryJaneCoin.Net.TriedEviction
import MaryJaneCoin.Mw.MmrAddress
import MaryJaneCoin.Wallet.KeyObjects
import MaryJaneCoin.Chain.WideInteger
import MaryJaneCoin.Chain.LedgerHistory
import MaryJaneCoin.Net.BloomFilter
