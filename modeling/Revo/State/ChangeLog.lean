/-
  Revo.State.ChangeLog

  The state's change log (`libethereum/State.h`) and
  `RevoState::validateTransfersWithChangeLog`.

  Every balance change of an account is logged as a `Balance` entry
  `(address, amount)`: `addBalance(a, v)` logs `(a, v)` and
  `subBalance(a, v)` logs `(a, 0 - v)`, so a transfer `from -> to` of `v`
  logs `(from, 0 - v)` and `(to, v)`.  A revert truncates the log, so after
  an execution the log holds the entries of the transfers that were not
  rolled back.  `validateTransfersWithChangeLog` keeps a recorded transfer
  when it finds, in a copy of the log, a receiver entry `(to, v)` and then a
  sender entry `(from, 0 - v)`; it zeroes the address of both so that they
  are not matched again.
-/

import Revo.State.RevoState

namespace Revo

/-- `Change::Kind`. -/
inductive ChangeKind
  | Balance
  | Storage
  | StorageRoot
  | Nonce
  | Create
  | Code
  | Touch
  deriving DecidableEq, Repr

/-- `Change`: one entry of the change log. -/
structure Change where
  kind : ChangeKind
  address : Address
  value : U256
  key : U256
  deriving DecidableEq, Repr

/-- `c.kind == Change::Balance && c.address == a && c.value == v`. -/
def isBalanceEntry (a : Address) (v : U256) (c : Change) : Bool :=
  c.kind == .Balance && c.address == a && c.value == v

/-- `tmpChangeLog[i].address = dev::Address(0)`. -/
def zeroAddress (log : List Change) (i : Nat) : List Change :=
  log.modify i fun c => { c with address := 0 }

/-- One iteration over `transfers`: the copy of the log and the transfers
    kept so far. -/
def validateStep (st : List Change × List TransferInfo) (ti : TransferInfo) :
    List Change × List TransferInfo :=
  match st.1.findIdx? (isBalanceEntry ti.toAddr ti.value) with
  | none => st
  | some i =>
    match st.1.findIdx? (isBalanceEntry ti.fromAddr (0 - ti.value)) with
    | none => st
    | some j => (zeroAddress (zeroAddress st.1 i) j, st.2 ++ [ti])

/-- `validateTransfersWithChangeLog()`: the transfers it keeps. -/
def validateTransfersWithChangeLog (transfers : List TransferInfo) (changeLog : List Change) :
    List TransferInfo :=
  (transfers.foldl validateStep (changeLog, [])).2

end Revo
