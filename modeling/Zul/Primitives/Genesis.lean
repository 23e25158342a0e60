import Zul.Primitives.Basic

/-! # Genesis

The genesis specification; its hash identifies the chain and is the parent of the first block.
-/

namespace Zul

structure Allocation where
  pubkey : Pubkey
  lamports : UInt64
  deriving DecidableEq

structure GenesisConfig where
  chainName : String
  creationTimeMs : UInt64
  sequencer : Pubkey
  feeCollector : Pubkey
  /-- Empty on a chain without pre-mine. -/
  allocations : List Allocation
  deriving DecidableEq

inductive PrimitivesError
  | invalidGenesis (reason : String)
  deriving DecidableEq

/-- Sum of all allocations, unless it overflows; the fixed native supply of the chain. -/
def GenesisConfig.totalSupply (g : GenesisConfig) : Option UInt64 :=
  g.allocations.foldlM (fun acc a => acc.checkedAdd a.lamports) 0

/-- The loop of `validate`: no allocation is zero and no key was seen before. -/
def validateAllocations (display : Pubkey → String) :
    List Pubkey → List Allocation → Except PrimitivesError Unit
  | _, [] => .ok ()
  | seen, a :: rest =>
    if a.lamports = 0 then
      .error (.invalidGenesis ("zero-lamport allocation for " ++ display a.pubkey))
    else if seen.contains a.pubkey then
      .error (.invalidGenesis ("duplicate allocation for " ++ display a.pubkey))
    else validateAllocations display (a.pubkey :: seen) rest

/-- Check a parsed genesis; keys are shown in base58. -/
def GenesisConfig.validate (display : Pubkey → String) (g : GenesisConfig) :
    Except PrimitivesError Unit :=
  if g.chainName.isEmpty then .error (.invalidGenesis "chain_name must not be empty")
  else
    match validateAllocations display [] g.allocations with
    | .error e => .error e
    | .ok () =>
      if g.totalSupply.isSome then .ok ()
      else .error (.invalidGenesis "total supply overflows u64")

/-- The genesis hash; allocations are hashed in the order of their keys. -/
def GenesisConfig.genesisHash (P : Prims) (g : GenesisConfig) : H256 :=
  let sorted := g.allocations.mergeSort fun a b => !decide (b.pubkey.toList < a.pubkey.toList)
  P.blake3Concat (strBytes "PL2:genesis:v1")
    ([strBytes g.chainName, LittleEndian.u64 g.creationTimeMs, g.sequencer.toList,
        g.feeCollector.toList] ++
      sorted.flatMap fun a => [a.pubkey.toList, LittleEndian.u64 a.lamports])

end Zul
