import Zul.Primitives.Basic

/-! # Wrapped SPL tokens

A deposit of an L1 token credits a deterministic L2 token: a mint whose address is derived
from the L1 mint, and the holder's associated token account. The node reads and writes the
packed account layouts directly; a write outside the buffer panics, here `none`.
-/

namespace Zul.WrappedSpl

def TOKEN_PROGRAM_ID : Pubkey :=
  ⟨[6, 221, 246, 225, 215, 101, 161, 147, 217, 203, 225, 70, 206, 235, 121, 172, 28, 180, 133, 237,
    95, 91, 55, 145, 58, 140, 245, 133, 126, 255, 0, 169], rfl⟩

def ATA_PROGRAM_ID : Pubkey :=
  ⟨[140, 151, 37, 143, 78, 36, 137, 241, 187, 61, 16, 41, 20, 142, 13, 131, 11, 90, 19, 153, 218,
    255, 16, 132, 4, 142, 123, 216, 219, 233, 248, 89], rfl⟩

/-- Solana's canonical wrapped-SOL mint, `So11111111111111111111111111111111111111112`. -/
def nativeSolMint : Pubkey :=
  ⟨[6, 155, 136, 87, 254, 171, 129, 132, 251, 104, 127, 99, 70, 24, 192, 53, 218, 196, 57, 220,
    26, 235, 59, 85, 152, 160, 240, 0, 0, 0, 0, 1], rfl⟩

/-- The recorded mint authority of wrapped mints; nobody holds its key. -/
def BRIDGE_MINT_AUTHORITY : Pubkey :=
  ⟨[0x06, 0x21] ++ List.replicate 29 0 ++ [0x02], rfl⟩

def MINT_LEN : ℕ := 82

def ACCOUNT_LEN : ℕ := 165

section Addresses

variable (P : Prims)

/-- The L2 address of the wrapped mint of an L1 mint. -/
def wrappedMintAddress (l1Mint : Pubkey) : Pubkey :=
  P.blake3_32 (strBytes "PL2:bridge:wrapped-mint:v1") l1Mint.toList

/-- The associated token account of `(owner, mint)` under the classic Token program. -/
def associatedTokenAddress (owner mint : Pubkey) : Pubkey :=
  P.findProgramAddress [owner.toList, TOKEN_PROGRAM_ID.toList, mint.toList] ATA_PROGRAM_ID

end Addresses

/-- Rent-exempt minimum lamports for `dataLen` bytes. -/
def rentExemptLamports (dataLen : ℕ) : UInt64 := UInt64.ofNat ((128 + dataLen) * 3480 * 2)

/-- Pack an SPL `Mint`: authority, supply, decimals, initialized, no freeze authority. -/
def packMint (mintAuthority : Pubkey) (supply : UInt64) (decimals : UInt8) : List UInt8 :=
  LittleEndian.u32 1 ++ mintAuthority.toList ++ LittleEndian.u64 supply ++ [decimals, 1] ++
    List.replicate 36 0

/-- Read the `supply` field of a packed `Mint`. -/
def mintSupply (data : List UInt8) : Option UInt64 :=
  (data.range? 36 44).map LittleEndian.toU64

/-- Set the `supply` field in place. -/
def setMintSupply (data : List UInt8) (supply : UInt64) : Option (List UInt8) :=
  data.writeAt? 36 (LittleEndian.u64 supply)

/-- Pack an initialized SPL token `Account` holding `amount` of `mint` for `owner`. -/
def packTokenAccount (mint owner : Pubkey) (amount : UInt64) : List UInt8 :=
  mint.toList ++ owner.toList ++ LittleEndian.u64 amount ++ List.replicate 36 0 ++ [1] ++
    List.replicate 56 0

/-- Read the `amount` field of a packed token `Account`. -/
def tokenAccountAmount (data : List UInt8) : Option UInt64 :=
  (data.range? 64 72).map LittleEndian.toU64

/-- Set the `amount` field in place, leaving every other byte untouched. -/
def setTokenAccountAmount (data : List UInt8) (amount : UInt64) : Option (List UInt8) :=
  data.writeAt? 64 (LittleEndian.u64 amount)

theorem length_packMint (a : Pubkey) (s : UInt64) (d : UInt8) :
    (packMint a s d).length = MINT_LEN := by
  simp [packMint, MINT_LEN]

theorem length_packTokenAccount (m o : Pubkey) (a : UInt64) :
    (packTokenAccount m o a).length = ACCOUNT_LEN := by
  simp [packTokenAccount, ACCOUNT_LEN]

@[simp] theorem tokenAccountAmount_pack (m o : Pubkey) (a : UInt64) :
    tokenAccountAmount (packTokenAccount m o a) = some a := by
  have hpre : (m.toList ++ o.toList).length = 64 := by simp
  have hlen : 72 ≤ (packTokenAccount m o a).length := by
    rw [length_packTokenAccount]; decide
  rw [tokenAccountAmount, List.range?, if_pos hlen, packTokenAccount]
  simp only [List.append_assoc]
  rw [← List.append_assoc m.toList, List.drop_left' hpre, List.take_left' (by simp)]
  simp

@[simp] theorem mintSupply_pack (a : Pubkey) (s : UInt64) (d : UInt8) :
    mintSupply (packMint a s d) = some s := by
  have hpre : (LittleEndian.u32 1 ++ a.toList).length = 36 := by simp
  have hlen : 44 ≤ (packMint a s d).length := by
    rw [length_packMint]; decide
  rw [mintSupply, List.range?, if_pos hlen, packMint]
  simp only [List.append_assoc]
  rw [← List.append_assoc (LittleEndian.u32 1), List.drop_left' hpre, List.take_left' (by simp)]
  simp

/-- A mint read as a token account holds nothing: the field lies in its unset authority. -/
theorem tokenAccountAmount_packMint (a : Pubkey) (s : UInt64) (d : UInt8) :
    tokenAccountAmount (packMint a s d) = some 0 := by
  have hpre : (LittleEndian.u32 1 ++ a.toList ++ LittleEndian.u64 s ++ [d, 1]).length = 46 := by
    simp
  have hlen : 72 ≤ (packMint a s d).length := by
    rw [length_packMint]; decide
  rw [tokenAccountAmount, List.range?, if_pos hlen, packMint, List.drop_append, hpre,
    List.drop_of_length_le (hpre.trans_le (by decide)), List.nil_append]
  decide

theorem tokenAccountAmount_set {data data' : List UInt8} {a : UInt64}
    (h : setTokenAccountAmount data a = some data') : tokenAccountAmount data' = some a := by
  rw [tokenAccountAmount, List.range?_writeAt? h (by simp)]
  simp

theorem setTokenAccountAmount_isSome {data : List UInt8} {a : UInt64} :
    (setTokenAccountAmount data a).isSome ↔ 72 ≤ data.length := by
  simp [setTokenAccountAmount, List.writeAt?_isSome]

theorem length_setTokenAccountAmount {data data' : List UInt8} {a : UInt64}
    (h : setTokenAccountAmount data a = some data') : data'.length = data.length :=
  List.length_of_writeAt? h

theorem setMintSupply_isSome {data : List UInt8} {s : UInt64} :
    (setMintSupply data s).isSome ↔ 44 ≤ data.length := by
  simp [setMintSupply, List.writeAt?_isSome]

theorem length_setMintSupply {data data' : List UInt8} {s : UInt64}
    (h : setMintSupply data s = some data') : data'.length = data.length :=
  List.length_of_writeAt? h

theorem mintSupply_set {data data' : List UInt8} {s : UInt64}
    (h : setMintSupply data s = some data') : mintSupply data' = some s := by
  rw [mintSupply, List.range?_writeAt? h (by simp)]
  simp

theorem mintSupply_setTokenAccountAmount {data data' : List UInt8} {a : UInt64}
    (h : setTokenAccountAmount data a = some data') : mintSupply data' = mintSupply data := by
  rw [mintSupply, mintSupply, List.range?_writeAt?_of_disjoint h (.inl (by decide))]

theorem tokenAccountAmount_setMintSupply {data data' : List UInt8} {s : UInt64}
    (h : setMintSupply data s = some data') :
    tokenAccountAmount data' = tokenAccountAmount data := by
  rw [tokenAccountAmount, tokenAccountAmount,
    List.range?_writeAt?_of_disjoint h (.inr (by simp))]

theorem tokenAccountAmount_isSome {data : List UInt8} :
    (tokenAccountAmount data).isSome ↔ 72 ≤ data.length := by
  unfold tokenAccountAmount List.range?
  split <;> simp_all

theorem mintSupply_isSome {data : List UInt8} : (mintSupply data).isSome ↔ 44 ≤ data.length := by
  unfold mintSupply List.range?
  split <;> simp_all

end Zul.WrappedSpl
