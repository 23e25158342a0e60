import Mathlib.Algebra.BigOperators.Group.List.Basic
import Zul.Settlement.Batches

/-! # The settlement program over its life

Anyone may call the program at any time and with any arguments, before it is set up and after, and
may send lamports or tokens to its vaults. Whatever is called, the accounts are what the accepted
calls add up to: the first to set the program up is its authority, batches are numbered as they
were posted, and a vault holds what came in less what was claimed.
-/

namespace Zul.Settlement

open Bridge Node

/-! ## The program -/

/-- The `Config` account. -/
structure Config where
  authority : Pubkey
  batchCount : UInt64
  totalDeposited : UInt64
  deriving DecidableEq

structure Accounts where
  config : Option Config
  batches : PartialMap UInt64 BatchRecord
  claims : PartialMap (Bytes 32 × UInt64) UInt64
  vaults : L1Asset → ℕ

namespace Accounts

def empty : Accounts := ⟨none, fun _ => none, fun _ => none, fun _ => 0⟩

variable (a : Accounts) (config : Config)

def batchAccounts : BatchAccounts := ⟨config.authority, config.batchCount, a.batches⟩

def program : ProgramState :=
  ⟨config.totalDeposited, fun n => (a.batches n).map (·.withdrawalsRoot), a.claims, a.vaults⟩

def withBatches (s : BatchAccounts) : Accounts :=
  { a with config := some { config with batchCount := s.batchCount }, batches := s.batches }

def withProgram (s : ProgramState) : Accounts :=
  { a with
    config := some { config with totalDeposited := s.totalDeposited }
    claims := s.claims
    vaults := s.vaults }

end Accounts

/-- The arguments of a claim, with the key of the recipient's account. -/
structure ClaimArgs where
  batchNo : UInt64
  amount : UInt64
  nonce : UInt64
  proof : Smt.SmtProof
  recipient : Bytes 32

inductive Instruction
  /-- `initialize`. -/
  | initializeConfig
  | postBatch (record : BatchRecord)
  | depositSol (amount : UInt64) (l2Recipient : Pubkey)
  /-- With the mint's decimals, the outcome of `require_safe_mint` and what the vault received. -/
  | depositSpl (mint : Mint) (decimals : UInt8) (safe : Bool) (amount received : UInt64)
      (l2Recipient : Pubkey)
  | claimWithdrawal (args : ClaimArgs)
  | claimWithdrawalSpl (mint : Mint) (args : ClaimArgs)

section Program

variable (P : Prims)

/-- Every instruction but `initialize` reads the config. -/
def execConfigured (a : Accounts) (config : Config) (signer : Pubkey) :
    Instruction → Except SettlementError Accounts
  | .initializeConfig => .error .accountInUse
  | .postBatch record =>
    ((a.batchAccounts config).postBatch signer record).map (a.withBatches config)
  | .depositSol amount l2Recipient =>
    (depositSol (a.program config) signer amount l2Recipient).map (a.withProgram config ·.1)
  | .depositSpl mint decimals safe amount received l2Recipient =>
    (depositSpl (a.program config) signer mint decimals safe amount received l2Recipient).map
      (a.withProgram config ·.1)
  | .claimWithdrawal args =>
    (claimWithdrawal P (a.program config) args.batchNo args.recipient args.amount args.nonce
      args.proof).map (a.withProgram config)
  | .claimWithdrawalSpl mint args =>
    (claimWithdrawalSpl P mint (a.program config) args.batchNo args.recipient args.amount
      args.nonce args.proof).map (a.withProgram config)

def exec (a : Accounts) (signer : Pubkey) (ix : Instruction) : Except SettlementError Accounts :=
  match a.config, ix with
  | none, .initializeConfig => .ok { a with config := some ⟨signer, 0, 0⟩ }
  | none, _ => .error .accountNotInitialized
  | some config, ix => execConfigured P a config signer ix

/-! ## Runs -/

inductive Action
  | call (signer : Pubkey) (ix : Instruction)
  /-- Lamports or tokens are sent to a vault without a call. -/
  | send (asset : L1Asset) (amount : ℕ)

/-- The accounts, the calls that were accepted and what was sent to the vaults besides. -/
structure L1State where
  accounts : Accounts
  accepted : List (Pubkey × Instruction)
  sent : List (L1Asset × ℕ)

def act (s : L1State) : Action → L1State
  | .call signer ix =>
    match exec P s.accounts signer ix with
    | .ok accounts => { s with accounts, accepted := s.accepted ++ [(signer, ix)] }
    | .error _ => s
  | .send asset amount => { s with
      accounts := { s.accounts with
        vaults := Function.update s.accounts.vaults asset (s.accounts.vaults asset + amount) }
      sent := s.sent ++ [(asset, amount)] }

def run (actions : List Action) : L1State := actions.foldl (act P) ⟨.empty, [], []⟩

end Program

/-! ## What the calls add up to -/

namespace Instruction

def deposit : Instruction → Option (L1Asset × ℕ)
  | depositSol amount _ => some (.sol, amount.toNat)
  | depositSpl mint _ _ _ received _ => some (.spl mint, received.toNat)
  | _ => none

def claim : Instruction → Option (L1Asset × ClaimArgs)
  | claimWithdrawal args => some (.sol, args)
  | claimWithdrawalSpl mint args => some (.spl mint, args)
  | _ => none

def record : Instruction → Option BatchRecord
  | postBatch record => some record
  | _ => none

end Instruction

def totalOf (asset : L1Asset) (amounts : List (L1Asset × ℕ)) : ℕ :=
  (amounts.map fun e => if e.1 = asset then e.2 else 0).sum

section Calls

variable (calls : List (Pubkey × Instruction))

def records : List BatchRecord := calls.filterMap (·.2.record)

def deposits : List (L1Asset × ℕ) := calls.filterMap (·.2.deposit)

def claims : List (L1Asset × ClaimArgs) := calls.filterMap (·.2.claim)

def payments : List (L1Asset × ℕ) := (claims calls).map fun c => (c.1, c.2.amount.toNat)

def claimRows : List ((Bytes 32 × UInt64) × UInt64) :=
  (claims calls).map fun c => ((c.2.recipient, c.2.nonce), c.2.amount)

end Calls

structure Ledger (P : Prims) (s : L1State) : Prop where
  /-- Before the program is set up there is no batch and no call is accepted. -/
  unset : s.accounts.config = none → s.accepted = [] ∧ s.accounts.batches = fun _ => none
  /-- The authority is whoever set the program up, once. -/
  authority : ∀ config, s.accounts.config = some config →
    ∃ later, s.accepted = (config.authority, .initializeConfig) :: later ∧
      ∀ call ∈ later, call.2 ≠ .initializeConfig
  /-- The batch accounts are the records in the order they were posted, all by the authority. -/
  posted : ∀ config, s.accounts.config = some config →
    (s.accounts.batchAccounts config).Holds (records s.accepted) ∧
      ∀ call ∈ s.accepted, call.2.record.isSome → call.1 = config.authority
  totalDeposited : ∀ config, s.accounts.config = some config →
    config.totalDeposited.toNat = totalOf .sol (deposits s.accepted)
  /-- A vault holds what came in less what was claimed. -/
  vaults : ∀ asset, s.accounts.vaults asset + totalOf asset (payments s.accepted) =
    totalOf asset (deposits s.accepted) + totalOf asset s.sent
  /-- A recipient's nonce is claimed once, in one asset. -/
  once : ((claimRows s.accepted).map Prod.fst).Nodup
  claimed : s.accounts.claims = PartialMap.insertAll (fun _ => none) (claimRows s.accepted)
  /-- Every claim was proved under the root of a batch posted before it. -/
  proved : ∀ (i : ℕ) signer ix asset args, s.accepted[i]? = some (signer, ix) →
    ix.claim = some (asset, args) →
    ∃ record, (records (s.accepted.take i))[args.batchNo.toNat]? = some record ∧
      WithdrawSmt.verify P record.withdrawalsRoot
        (claimedLeaf P asset args.recipient args.amount args.nonce).1
        (claimedLeaf P asset args.recipient args.amount args.nonce).2 args.proof = true

/-! ## One call -/

structure Executed (P : Prims) (a : Accounts) (config : Config) (signer : Pubkey)
    (ix : Instruction) (a' : Accounts) (config' : Config) : Prop where
  config_eq : a'.config = some config'
  authority : config'.authority = config.authority
  later : ix ≠ .initializeConfig
  holds : ∀ posted, (a.batchAccounts config).Holds posted →
    (a'.batchAccounts config').Holds (posted ++ ix.record.toList)
  signer : ix.record.isSome → signer = config.authority
  totalDeposited : config'.totalDeposited.toNat =
    config.totalDeposited.toNat + totalOf .sol ix.deposit.toList
  vaults : ∀ asset,
    a'.vaults asset + totalOf asset (ix.claim.toList.map fun c => (c.1, c.2.amount.toNat)) =
      a.vaults asset + totalOf asset ix.deposit.toList
  claims : a'.claims = a.claims.insertAll
    (ix.claim.toList.map fun c => ((c.2.recipient, c.2.nonce), c.2.amount))
  claim : ∀ asset args, ix.claim = some (asset, args) →
    a.claims (args.recipient, args.nonce) = none ∧
      ∃ record, a.batches args.batchNo = some record ∧
        WithdrawSmt.verify P record.withdrawalsRoot
          (claimedLeaf P asset args.recipient args.amount args.nonce).1
          (claimedLeaf P asset args.recipient args.amount args.nonce).2 args.proof = true

section Step

variable {P : Prims} {a a' : Accounts} {config : Config} {signer : Pubkey}

@[simp] theorem totalOf_nil (asset : L1Asset) : totalOf asset [] = 0 := rfl

theorem totalOf_append (asset : L1Asset) (l l' : List (L1Asset × ℕ)) :
    totalOf asset (l ++ l') = totalOf asset l + totalOf asset l' := by
  rw [totalOf, List.map_append, List.sum_append]
  rfl

theorem totalOf_singleton (asset : L1Asset) (e : L1Asset × ℕ) :
    totalOf asset [e] = if e.1 = asset then e.2 else 0 := by
  rw [totalOf, List.map_singleton, List.sum_singleton]

theorem map_eq_ok {ε α β : Type*} {x : Except ε α} {f : α → β} {b : β} (h : x.map f = .ok b) :
    ∃ y, x = .ok y ∧ f y = b := by
  cases x with
  | error e => cases h
  | ok y => exact ⟨y, rfl, Except.ok.inj h⟩

theorem executed_postBatch {record : BatchRecord}
    (h : execConfigured P a config signer (.postBatch record) = .ok a') :
    ∃ config', Executed P a config signer (.postBatch record) a' config' := by
  obtain ⟨s, hpost, rfl⟩ := map_eq_ok h
  refine ⟨_, rfl, rfl, nofun, fun posted hposted => ?_,
    fun _ => BatchAccounts.signer_of_postBatch hpost, rfl, fun _ => rfl, rfl, nofun⟩
  obtain ⟨hholds, -⟩ := hposted.postBatch hpost
  exact ⟨hholds.count, hholds.lookup⟩

theorem update_add (vaults : L1Asset → ℕ) (asset asset' : L1Asset) (amount : ℕ) :
    Function.update vaults asset (vaults asset + amount) asset' =
      vaults asset' + totalOf asset' [(asset, amount)] := by
  rw [totalOf_singleton, Function.update_apply]
  by_cases heq : asset' = asset
  · rw [if_pos heq, if_pos heq.symm, heq]
  · rw [if_neg heq, if_neg (Ne.symm heq), Nat.add_zero]

theorem update_sub {vaults : L1Asset → ℕ} {asset : L1Asset} {amount : ℕ}
    (h : amount ≤ vaults asset) (asset' : L1Asset) :
    Function.update vaults asset (vaults asset - amount) asset' +
      totalOf asset' [(asset, amount)] = vaults asset' := by
  rw [totalOf_singleton, Function.update_apply]
  by_cases heq : asset' = asset
  · rw [if_pos heq, if_pos heq.symm, heq, Nat.sub_add_cancel h]
  · rw [if_neg heq, if_neg (Ne.symm heq), Nat.add_zero]

theorem executed_depositSol {amount : UInt64} {l2Recipient : Pubkey}
    (h : execConfigured P a config signer (.depositSol amount l2Recipient) = .ok a') :
    ∃ config', Executed P a config signer (.depositSol amount l2Recipient) a' config' := by
  obtain ⟨⟨s, event⟩, hdeposit, rfl⟩ := map_eq_ok h
  unfold depositSol at hdeposit
  split_ifs at hdeposit with hzero hroom
  cases hdeposit
  refine ⟨_, rfl, rfl, nofun, fun posted hposted => ?_, nofun, ?_, fun asset => ?_, rfl, nofun⟩
  · exact (List.append_nil posted).symm ▸ hposted
  · exact (UInt64.toNat_add ..).trans (Nat.mod_eq_of_lt (not_le.mp hroom))
  · exact update_add a.vaults .sol asset amount.toNat

theorem executed_depositSpl {mint : Mint} {decimals : UInt8} {safe : Bool}
    {amount received : UInt64} {l2Recipient : Pubkey}
    (h : execConfigured P a config signer
      (.depositSpl mint decimals safe amount received l2Recipient) = .ok a') :
    ∃ config', Executed P a config signer
      (.depositSpl mint decimals safe amount received l2Recipient) a' config' := by
  obtain ⟨⟨s, event⟩, hdeposit, rfl⟩ := map_eq_ok h
  unfold depositSpl at hdeposit
  split_ifs at hdeposit
  cases hdeposit
  refine ⟨_, rfl, rfl, nofun, fun posted hposted => ?_, nofun, ?_, fun asset => ?_, rfl, nofun⟩
  · exact (List.append_nil posted).symm ▸ hposted
  · rw [Instruction.deposit, Option.toList_some, totalOf_singleton, if_neg nofun]
    rfl
  · exact update_add a.vaults (.spl mint) asset received.toNat

theorem executed_claim {asset : L1Asset} {args : ClaimArgs} {ix : Instruction}
    (hclaim : ix.claim = some (asset, args)) (hdeposit : ix.deposit = none)
    (hrecord : ix.record = none) {s : ProgramState}
    (h : claim P asset (a.program config) args.batchNo args.recipient args.amount args.nonce
      args.proof = .ok s) :
    Executed P a config signer ix (a.withProgram config s)
      { config with totalDeposited := s.totalDeposited } := by
  obtain ⟨⟨root, hroot, hverify⟩, hnew, -, hfunds, rfl⟩ := claim_eq_ok_iff.mp h
  refine ⟨rfl, rfl, ?_, fun posted hposted => ?_, ?_, ?_, fun asset' => ?_, ?_,
    fun asset' args' hargs => ?_⟩
  · rintro rfl
    cases hclaim
  · rw [hrecord, Option.toList_none, List.append_nil]
    exact hposted
  · rw [hrecord]
    nofun
  · rw [hdeposit]
    rfl
  · rw [hclaim, hdeposit]
    exact update_sub hfunds asset'
  · rw [hclaim]
    rfl
  · rw [hclaim] at hargs
    cases hargs
    obtain ⟨record, hrecord, rfl⟩ := Option.map_eq_some_iff.mp hroot
    exact ⟨hnew, record, hrecord, hverify⟩

theorem executed_of_configured {ix : Instruction}
    (h : execConfigured P a config signer ix = .ok a') :
    ∃ config', Executed P a config signer ix a' config' := by
  cases ix with
  | initializeConfig => cases h
  | postBatch record => exact executed_postBatch h
  | depositSol amount l2Recipient => exact executed_depositSol h
  | depositSpl mint decimals safe amount received l2Recipient => exact executed_depositSpl h
  | claimWithdrawal args =>
    obtain ⟨s, hclaim, rfl⟩ := map_eq_ok h
    exact ⟨_, executed_claim rfl rfl rfl hclaim⟩
  | claimWithdrawalSpl mint args =>
    obtain ⟨s, hclaim, rfl⟩ := map_eq_ok h
    exact ⟨_, executed_claim rfl rfl rfl hclaim⟩

theorem exec_cases {ix : Instruction} (h : exec P a signer ix = .ok a') :
    (a.config = none ∧ ix = .initializeConfig ∧
      a' = { a with config := some ⟨signer, 0, 0⟩ }) ∨
    ∃ config config', a.config = some config ∧ Executed P a config signer ix a' config' := by
  unfold exec at h
  split at h
  · rename_i hnone
    cases h
    exact .inl ⟨hnone, rfl, rfl⟩
  · cases h
  · rename_i config hsome
    obtain ⟨config', hexecuted⟩ := executed_of_configured h
    exact .inr ⟨config, config', hsome, hexecuted⟩

/-! ## Whole runs -/

section Concat

variable (calls : List (Pubkey × Instruction)) (signer : Pubkey) (ix : Instruction)

theorem filterMap_concat {β : Type*} (f : Instruction → Option β) :
    (calls ++ [(signer, ix)]).filterMap (fun call => f call.2) =
      calls.filterMap (fun call => f call.2) ++ (f ix).toList := by
  rw [List.filterMap_append]
  cases h : f ix <;> simp [h]

theorem records_concat : records (calls ++ [(signer, ix)]) = records calls ++ ix.record.toList :=
  filterMap_concat calls signer ix Instruction.record

theorem deposits_concat :
    deposits (calls ++ [(signer, ix)]) = deposits calls ++ ix.deposit.toList :=
  filterMap_concat calls signer ix Instruction.deposit

theorem payments_concat : payments (calls ++ [(signer, ix)]) =
    payments calls ++ ix.claim.toList.map fun c => (c.1, c.2.amount.toNat) := by
  rw [payments, claims, filterMap_concat, List.map_append]
  rfl

theorem claimRows_concat : claimRows (calls ++ [(signer, ix)]) =
    claimRows calls ++ ix.claim.toList.map fun c => ((c.2.recipient, c.2.nonce), c.2.amount) := by
  rw [claimRows, claims, filterMap_concat, List.map_append]
  rfl

end Concat

theorem ledger_empty (P : Prims) : Ledger P ⟨.empty, [], []⟩ where
  unset _ := ⟨rfl, rfl⟩
  authority := nofun
  posted := nofun
  totalDeposited := nofun
  vaults _ := rfl
  once := List.nodup_nil
  claimed := rfl
  proved := nofun

theorem Ledger.send {s : L1State} (h : Ledger P s) (asset : L1Asset) (amount : ℕ) :
    Ledger P (act P s (.send asset amount)) :=
  { h with
    vaults := fun asset' => by
      show Function.update s.accounts.vaults asset _ asset' +
          totalOf asset' (payments s.accepted) =
        totalOf asset' (deposits s.accepted) + totalOf asset' (s.sent ++ [(asset, amount)])
      rw [update_add, totalOf_append]
      have := h.vaults asset'
      omega }

theorem Ledger.initializeConfig {s : L1State} (h : Ledger P s) (hnone : s.accounts.config = none)
    (signer : Pubkey) : Ledger P ⟨{ s.accounts with config := some ⟨signer, 0, 0⟩ },
      s.accepted ++ [(signer, .initializeConfig)], s.sent⟩ := by
  obtain ⟨haccepted, hbatches⟩ := h.unset hnone
  have hclaimed := h.claimed
  have hvaults := h.vaults
  rw [haccepted] at hclaimed hvaults ⊢
  refine ⟨nofun, ?_, ?_, ?_, hvaults, List.nodup_nil, hclaimed, ?_⟩
  · rintro config ⟨⟩
    exact ⟨[], rfl, nofun⟩
  · rintro config ⟨⟩
    refine ⟨⟨rfl, fun n => ?_⟩, ?_⟩
    · show s.accounts.batches n = _
      rw [hbatches]
      rfl
    · intro call hcall hrecord
      rw [List.mem_singleton.mp hcall] at hrecord
      cases hrecord
  · rintro config ⟨⟩
    rfl
  · intro i signer' ix asset args hcall hclaim
    have hmem := List.mem_of_getElem? hcall
    cases List.mem_singleton.mp hmem
    cases hclaim

theorem Ledger.executed {s : L1State} {config config' : Config} {ix : Instruction}
    (h : Ledger P s) (hsome : s.accounts.config = some config)
    (he : Executed P s.accounts config signer ix a' config') :
    Ledger P ⟨a', s.accepted ++ [(signer, ix)], s.sent⟩ := by
  obtain ⟨hholds, hsigners⟩ := h.posted config hsome
  refine ⟨fun hnone => ?_, fun c hc => ?_, fun c hc => ?_, fun c hc => ?_, fun asset => ?_, ?_, ?_,
    ?_⟩
  · cases hnone.symm.trans he.config_eq
  · cases hc.symm.trans he.config_eq
    obtain ⟨later, haccepted, hlater⟩ := h.authority config hsome
    refine ⟨later ++ [(signer, ix)], ?_, fun call hcall => ?_⟩
    · rw [haccepted, he.authority]
      rfl
    · rcases List.mem_append.mp hcall with hcall | hcall
      · exact hlater call hcall
      · rw [List.mem_singleton.mp hcall]
        exact he.later
  · cases hc.symm.trans he.config_eq
    refine ⟨?_, fun call hcall hrecord => ?_⟩
    · rw [records_concat]
      exact he.holds _ hholds
    · rw [he.authority]
      rcases List.mem_append.mp hcall with hcall | hcall
      · exact hsigners call hcall hrecord
      · rw [List.mem_singleton.mp hcall] at hrecord ⊢
        exact he.signer hrecord
  · cases hc.symm.trans he.config_eq
    rw [he.totalDeposited, h.totalDeposited config hsome, deposits_concat, totalOf_append]
  · have hvaults := h.vaults asset
    have hstep := he.vaults asset
    rw [payments_concat, deposits_concat, totalOf_append, totalOf_append]
    dsimp only
    omega
  · rw [claimRows_concat, List.map_append]
    cases hclaim : ix.claim with
    | none => rw [Option.toList_none, List.map_nil, List.map_nil, List.append_nil]; exact h.once
    | some c =>
      obtain ⟨hnew, -⟩ := he.claim c.1 c.2 hclaim
      rw [h.claimed, PartialMap.insertAll_eq_none_iff] at hnew
      have honce := List.Nodup.concat hnew h.once
      rwa [List.concat_eq_append] at honce
  · rw [claimRows_concat, PartialMap.insertAll_append, ← h.claimed]
    exact he.claims
  · intro i signer' ix' asset args hcall hclaim
    dsimp only at hcall ⊢
    rcases Nat.lt_or_ge i s.accepted.length with hlt | hge
    · rw [List.getElem?_append_left hlt] at hcall
      rw [List.take_append_of_le_length hlt.le]
      exact h.proved i signer' ix' asset args hcall hclaim
    · rw [List.getElem?_append_right hge, List.getElem?_singleton] at hcall
      split at hcall
      · rename_i hzero
        cases hcall
        obtain ⟨-, record, hrecord, hverify⟩ := he.claim asset args hclaim
        rw [show i = s.accepted.length by omega, List.take_left' rfl]
        exact ⟨record, (hholds.lookup _).symm.trans hrecord, hverify⟩
      · cases hcall

end Step

end Zul.Settlement
