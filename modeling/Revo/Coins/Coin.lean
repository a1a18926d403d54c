/-
  Revo.Coins.Coin

  `Coin` (`coins.h`): an unspent output with the height and kind of the
  transaction that created it.  A spent coin is one whose output is null
  (`nValue == -1`); `Clear` turns a coin into the spent, empty one.  The
  height is the 30-bit bitfield of the source, so it is a `Fin (2 ^ 30)`.
-/

import Revo.Primitives.Transaction

namespace Revo

instance Coin.neZero : NeZero (2 ^ 30) := ⟨by decide⟩

structure Coin where
  out : CTxOut
  fCoinBase : Bool
  fCoinStake : Bool
  nHeight : Fin (2 ^ 30)
  deriving DecidableEq, Repr

namespace Coin

/-- `Coin()`: the empty coin, which is spent. -/
def empty : Coin := ⟨CTxOut.null, false, false, 0⟩

/-- `Coin::IsSpent`. -/
def isSpent (c : Coin) : Bool := c.out.isNull

/-- `Coin::Clear`. -/
def clear (_ : Coin) : Coin := empty

@[simp] theorem isSpent_empty : empty.isSpent = true := rfl

end Coin

end Revo
