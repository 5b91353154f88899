import HoneyBadgerBFT.BinaryAgreement.Agreement
import HoneyBadgerBFT.BinaryAgreement.Conf
import HoneyBadgerBFT.BinaryAgreement.Progress
import HoneyBadgerBFT.BinaryAgreement.Quit
import HoneyBadgerBFT.BinaryAgreement.Validity
import HoneyBadgerBFT.BinaryAgreement.Redundant
import HoneyBadgerBFT.BinaryAgreement.Distinct
import HoneyBadgerBFT.ReliableBroadcast.Broadcast
import HoneyBadgerBFT.ReliableBroadcast.Confusion
import HoneyBadgerBFT.CommonSubset.Safety
import HoneyBadgerBFT.CommonSubset.Progress
import HoneyBadgerBFT.Library.Pairing
import HoneyBadgerBFT.HoneyBadgerBlock.Robust
import HoneyBadgerBFT.HoneyBadger.Routing
import HoneyBadgerBFT.CommonCoin.Agreement
import HoneyBadgerBFT.ReliableBroadcast.Crash
import HoneyBadgerBFT.ReliableBroadcast.Parity
import HoneyBadgerBFT.ThresholdEncryption.Combine
import HoneyBadgerBFT.ThresholdSignature.Uniqueness
import HoneyBadgerBFT.ThresholdSignature.Secrecy
import HoneyBadgerBFT.BinaryAgreement.Wakeup
import HoneyBadgerBFT.ReliableBroadcast.Output
import HoneyBadgerBFT.BinaryAgreement.BinValues
import HoneyBadgerBFT.BinaryAgreement.Abandoned
import HoneyBadgerBFT.CommonCoin.Numbers
import HoneyBadgerBFT.ThresholdEncryption.Symmetric
import HoneyBadgerBFT.ThresholdSignature.MillerRabin
import HoneyBadgerBFT.ShoupSignature.Combine
import HoneyBadgerBFT.ReliableBroadcast.Bookkeeping
import HoneyBadgerBFT.BinaryAgreement.Senders
import HoneyBadgerBFT.HoneyBadger.Ledger
import HoneyBadgerBFT.HoneyBadger.Completion
