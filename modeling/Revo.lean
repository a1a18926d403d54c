import Revo.Lib.OrdMap
import Revo.Lib.Flow
import Revo.Lib.Rounding
import Revo.Lib.Lists
import Revo.Lib.Fold
import Revo.Lib.AssocMap
import Revo.Lib.UndoLog
import Revo.Lib.Codec
import Revo.Lib.Bits
import Revo.Lib.Checked
import Revo.Lib.Limbs
import Revo.Lib.ExpSeries
import Revo.Lib.HashLevels
import Revo.Lib.Positional
import Revo.Lib.JsonNumber
import Revo.Lib.TwoBitCells
import Revo.Lib.Generations
import Revo.Lib.Cells
import Revo.Lib.BitList
import Revo.Lib.ShiftRegister
import Revo.Lib.BoolTree
import Revo.Script.Script
import Revo.Script.ScriptNum
import Revo.Script.Interpreter
import Revo.Script.ScriptNumProofs
import Revo.Script.SenderSig
import Revo.Script.SenderSigProofs
import Revo.Primitives.Transaction
import Revo.Primitives.Block
import Revo.Primitives.BlockProofs
import Revo.Coins.Coin
import Revo.Coins.CoinsView
import Revo.Coins.CoinsViewProofs
import Revo.State.RevoState
import Revo.State.Condensing
import Revo.State.CondensingSpec
import Revo.State.CondensingProofs
import Revo.State.ChangeLog
import Revo.State.ValidateTransfers
import Revo.Contract.Converter
import Revo.Contract.ByteCodeExec
import Revo.Script.Standard
import Revo.Contract.Extraction
import Revo.Contract.ExtractionProofs
import Revo.Validation.ConnectBlock
import Revo.Validation.GasRefunds
import Revo.Validation.DisconnectBlock
import Revo.Validation.DisconnectBlockProofs
import Revo.Pos.Delegation
import Revo.Pos.DelegationProofs
import Revo.Serialize.Serialize
import Revo.Serialize.SerializeProofs
import Revo.Serialize.BitStream
import Revo.Serialize.BitStreamProofs
import Revo.Coins.Compressor
import Revo.Coins.CompressorProofs
import Revo.Arith.ArithUint256
import Revo.Arith.ArithUint256Proofs
import Revo.Arith.CompactProofs
import Revo.Consensus.Params
import Revo.Validation.Supply
import Revo.Validation.SupplyProofs
import Revo.Pow.Pow
import Revo.Pow.MulExpProofs
import Revo.Pow.PowProofs
import Revo.Consensus.Merkle
import Revo.Consensus.MerkleProofs
import Revo.Util.FixedPoint
import Revo.Util.FixedPointProofs
import Revo.Bloom.RollingBloom
import Revo.Bloom.RollingBloomProofs
import Revo.Filter.BlockFilter
import Revo.Filter.BlockFilterProofs
import Revo.Filter.GCSFilterProofs
import Revo.Util.Prevector
import Revo.Util.PrevectorProofs
import Revo.Util.StrEncodings
import Revo.Util.StrEncodingsProofs
import Revo.Util.Asmap
import Revo.Util.AsmapProofs
import Revo.Util.Base58
import Revo.Util.Base58Proofs
import Revo.Util.Bech32
import Revo.Util.Bech32Proofs
import Revo.Wallet.CoinSelection
import Revo.Wallet.CoinSelectionProofs
