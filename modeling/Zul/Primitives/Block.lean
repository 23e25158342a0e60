import Zul.Primitives.Basic

/-! # Blocks

The transactions root, the header hash and the sealed block. The header hash doubles as
the blockhash wallets sign against.
-/

namespace Zul

namespace Merkle

variable (P : Prims)

def leafHash (data : List UInt8) : H256 := P.blake3_32 (strBytes "PL2:merkle:leaf") data

def emptyRoot : H256 := P.blake3_32 (strBytes "PL2:merkle:empty") []

/-- One level up: pairs are hashed, an odd last node is promoted unchanged. -/
def nextLevel : List H256 → List H256
  | a :: b :: rest =>
    P.blake3Concat (strBytes "PL2:merkle:node") [a.toList, b.toList] :: nextLevel rest
  | [a] => [a]
  | [] => []

/-- The loop of `root_from_leaves`: climb while more than one node is left. -/
def climb : ℕ → List H256 → List H256
  | 0, level => level
  | fuel + 1, level => if 1 < level.length then climb fuel (nextLevel P level) else level

/-- The root over already-hashed leaves. A level halves, so the leaf count is enough fuel. -/
def rootFromLeaves (leaves : List H256) : H256 :=
  match climb P leaves.length leaves with
  | root :: _ => root
  | [] => emptyRoot P

def rootFromData (items : List (List UInt8)) : H256 := rootFromLeaves P (items.map (leafHash P))

end Merkle

/-- A block header; `slot` is monotonic, one block per slot. -/
structure BlockHeader where
  slot : UInt64
  parentHash : H256
  stateRoot : H256
  transactionsRoot : H256
  timestampMs : UInt64
  transactionCount : UInt32
  deriving DecidableEq

def BlockHeader.hash (P : Prims) (h : BlockHeader) : H256 :=
  P.blake3_32 (strBytes "PL2:block:header:v1")
    (LittleEndian.u64 h.slot ++ h.parentHash.toList ++ h.stateRoot.toList ++
      h.transactionsRoot.toList ++ LittleEndian.u64 h.timestampMs ++
      LittleEndian.u32 h.transactionCount)

structure Block where
  header : BlockHeader
  transactions : List VersionedTransaction
  sequencerSignature : Signature
  deriving DecidableEq

def Block.transactionsRoot (P : Prims) (serialize : VersionedTransaction → List UInt8)
    (transactions : List VersionedTransaction) : H256 :=
  Merkle.rootFromData P (transactions.map serialize)

end Zul
