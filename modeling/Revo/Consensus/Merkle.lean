/-
  Revo.Consensus.Merkle

  The Merkle root of a block's transactions (`consensus/merkle.cpp`) and the
  older level-by-level computation the tests compare it with
  (`BlockBuildMerkleTree` in `test/merkle_tests.cpp`).

    * `ComputeMerkleRoot` hashes the entries two by two, the last one paired
      with itself when their number is odd, until one is left; `*mutated` is
      set when some level has two equal entries at positions `2i` and
      `2i + 1`, the sign of a duplicated transaction list (CVE-2012-2459).
    * `BlockBuildMerkleTree` writes every level into one vector and sets its
      flag only when the last pair of a level is equal.

  The entries are generic: `hash` is `SHA256D64` on one pair, and `zero` is
  `uint256()`.  `SHA256D64` cannot be injective on `uint256`, so a model in
  which it is has to take its values in another type.  The leaves of a block
  are the hashes of its transactions, given as functions.
-/

import Revo.Primitives.Block

namespace Revo

section Merkle

variable {α : Type} [DecidableEq α] (hash : α → α → α) (zero : α)

/-! ## `ComputeMerkleRoot` -/

/-- `SHA256D64(out, in, blocks)` over the entries: each two consecutive
    entries hashed into one. -/
def sha256D64 : List α → List α
  | a :: b :: rest => hash a b :: sha256D64 rest
  | _ => []

/-- The scan of `ComputeMerkleRoot`: `hashes[pos] == hashes[pos + 1]` for
    some even `pos`. -/
def pairsEqual : List α → Bool
  | a :: b :: rest => a == b || pairsEqual rest
  | _ => false

/-- `if (hashes.size() & 1) hashes.push_back(hashes.back())`. -/
def duplicateLast (hashes : List α) : List α :=
  if hashes.length % 2 = 1 then hashes ++ [hashes.getLastD zero] else hashes

/-- The `while (hashes.size() > 1)` loop.  Each round leaves fewer entries,
    so their number is enough fuel. -/
def computeMerkleRootLoop : Nat → List α → Bool → List α × Bool
  | 0, hashes, mutation => (hashes, mutation)
  | fuel + 1, hashes, mutation =>
    if hashes.length > 1 then
      let mutation := mutation || pairsEqual hashes
      computeMerkleRootLoop fuel (sha256D64 hash (duplicateLast zero hashes)) mutation
    else (hashes, mutation)

/-- `ComputeMerkleRoot(hashes, mutated)`: the root, `uint256()` when there
    are no entries, and `*mutated`. -/
def computeMerkleRoot (hashes : List α) : α × Bool :=
  let (hashes, mutation) := computeMerkleRootLoop hash zero hashes.length hashes false
  (hashes.headD zero, mutation)

/-- `BlockMerkleRoot(block, mutated)`, with `GetHash` of a transaction given. -/
def blockMerkleRoot (getHash : CTransaction → α) (vtx : List CTransaction) : α × Bool :=
  computeMerkleRoot hash zero (vtx.map getHash)

/-- `BlockWitnessMerkleRoot(block, mutated, pfProofOfStake)`: the coinbase,
    and the coinstake of a proof-of-stake block, are `0`.  A null
    `pfProofOfStake` reads `block.IsProofOfStake()`. -/
def blockWitnessMerkleRoot (getWitnessHash : CTransaction → α) (header : CBlockHeader)
    (vtx : List CTransaction) (pfProofOfStake : Option Bool) : α × Bool :=
  let fProofOfStake := pfProofOfStake.getD header.isProofOfStake
  computeMerkleRoot hash zero (vtx.mapIdx fun s tx =>
    if s = 0 ∨ (fProofOfStake ∧ s = 1) then zero else getWitnessHash tx)

/-! ## `BlockBuildMerkleTree` -/

/-- The inner loop of `BlockBuildMerkleTree` from `i`: the level is the
    `nSize` entries of `vMerkleTree` from `j`, and each pair is pushed on its
    end. -/
def buildMerkleLevel (j nSize : Nat) : Nat → Nat → Bool → List α → Bool × List α
  | 0, _, mutated, vMerkleTree => (mutated, vMerkleTree)
  | fuel + 1, i, mutated, vMerkleTree =>
    if i < nSize then
      let i2 := min (i + 1) (nSize - 1)
      let mutated := mutated || decide (i2 = i + 1 ∧ i2 + 1 = nSize ∧
        vMerkleTree.getD (j + i) zero = vMerkleTree.getD (j + i2) zero)
      buildMerkleLevel j nSize fuel (i + 2) mutated
        (vMerkleTree ++ [hash (vMerkleTree.getD (j + i) zero) (vMerkleTree.getD (j + i2) zero)])
    else (mutated, vMerkleTree)

/-- The outer loop, `for (nSize = vtx.size(); nSize > 1; nSize = (nSize + 1) / 2)`. -/
def buildMerkleTreeLoop : Nat → Nat → Nat → Bool → List α → Bool × List α
  | 0, _, _, mutated, vMerkleTree => (mutated, vMerkleTree)
  | fuel + 1, j, nSize, mutated, vMerkleTree =>
    if nSize > 1 then
      let (mutated, vMerkleTree) := buildMerkleLevel hash zero j nSize nSize 0 mutated vMerkleTree
      buildMerkleTreeLoop fuel (j + nSize) ((nSize + 1) / 2) mutated vMerkleTree
    else (mutated, vMerkleTree)

/-- `BlockBuildMerkleTree(block, fMutated, vMerkleTree)` on the hashes of
    the block's transactions: the root, `*fMutated` and the tree. -/
def blockBuildMerkleTree (leaves : List α) : α × Bool × List α :=
  let (mutated, vMerkleTree) := buildMerkleTreeLoop hash zero leaves.length 0 leaves.length false leaves
  (vMerkleTree.getLastD zero, mutated, vMerkleTree)

end Merkle

end Revo
