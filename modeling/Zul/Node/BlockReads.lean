import Zul.Node.PoolReads

/-! # Reads of a block

Deposits, withdrawals and the commit as programs that read the store, and block production as a
whole. Where every read is answered, the program returns what production returns.
-/

namespace Zul.Node

open Bridge Executor Privacy WrappedSpl

namespace Reading

/-! ## Deposits -/

section Deposits

variable (P : Prims)

def loadThrough (writes : AccountWrites) (k : Pubkey) : StoreReads (Option StoredAccount) := do
  return (writes k).join.or (← getAccount k)

def creditMint (l1Mint : Pubkey) (amount : UInt64) (decimals : UInt8) (writes : AccountWrites) :
    StoreReads AccountWrites := do
  let wmint := wrappedMintAddress P l1Mint
  match mintWithSupply amount decimals (← loadThrough writes wmint) with
  | none => .fail (.node .panic)
  | some account => return writes.insert wmint (some account)

def creditTokenAccount (l1Mint recipient : Pubkey) (amount : UInt64) (writes : AccountWrites) :
    StoreReads AccountWrites := do
  let wmint := wrappedMintAddress P l1Mint
  let ata := associatedTokenAddress P recipient wmint
  match tokenWithAmount wmint recipient amount (← loadThrough writes ata) with
  | none => .fail (.node .panic)
  | some account => return writes.insert ata (some account)

def creditWrappedSpl (l1Mint recipient : Pubkey) (amount : UInt64) (decimals : UInt8)
    (writes : AccountWrites) : StoreReads AccountWrites := do
  let writes ← creditMint P l1Mint amount decimals writes
  creditTokenAccount P l1Mint recipient amount writes

def creditNative (recipient : Pubkey) (amount : UInt64) (writes : AccountWrites) :
    StoreReads AccountWrites := do
  let account := (← loadThrough writes recipient).getD (StoredAccount.newSystem 0)
  return writes.insert recipient
    (some { account with lamports := account.lamports.saturatingAdd amount })

def isCredited (writes : AccountWrites) (deposit : DepositEvent) : StoreReads Bool :=
  let receipt := depositReceiptAddress P deposit.l1Signature
  if (writes receipt).isSome then pure true
  else do return (← getAccount receipt).isSome

variable (gasMint : Option Pubkey)

def creditDeposit (writes : AccountWrites) (deposit : DepositEvent) : StoreReads AccountWrites :=
  if creditsNativeGas gasMint deposit.mint then
    creditNative deposit.l2Recipient deposit.amount writes
  else
    creditWrappedSpl P (wrappedAs deposit).1 deposit.l2Recipient deposit.amount
      (wrappedAs deposit).2 writes

def applyDeposit (acc : AccountWrites × List DepositEvent) (deposit : DepositEvent) :
    StoreReads (AccountWrites × List DepositEvent) := do
  if ← isCredited P acc.1 deposit then return acc
  let writes ← creditDeposit P gasMint acc.1 deposit
  let receipt := depositReceiptAddress P deposit.l1Signature
  return (writes.insert receipt (some (receiptAccount deposit)), acc.2 ++ [deposit])

def applyDeposits (deposits : List DepositEvent) (writes : AccountWrites) :
    StoreReads (AccountWrites × List DepositEvent) :=
  deposits.foldlM (applyDeposit P gasMint) (writes, [])

variable {P gasMint} {store : Store}

theorem returns_loadThrough (writes : AccountWrites) (k : Pubkey) :
    Reads.Returns (answer store) (loadThrough writes k)
      (.ok (Node.loadThrough store writes k)) :=
  (returns_getAccount k).bind_ok (.pure _)

theorem returns_creditWrappedSpl (l1Mint recipient : Pubkey) (amount : UInt64)
    (decimals : UInt8) (writes : AccountWrites) :
    Reads.Returns (answer store) (creditWrappedSpl P l1Mint recipient amount decimals writes)
      (orPanic (Node.creditWrappedSpl P store l1Mint recipient amount decimals writes)) := by
  refine returns_bind_orPanic ?_ fun minted => ?_
  · refine (returns_loadThrough writes _).bind_ok ?_
    unfold Node.creditMint
    dsimp only
    cases mintWithSupply amount decimals _ with
    | none => exact .fail _
    | some account => exact .pure _
  · refine (returns_loadThrough minted _).bind_ok ?_
    unfold Node.creditTokenAccount
    dsimp only
    cases tokenWithAmount _ recipient amount _ with
    | none => exact .fail _
    | some account => exact .pure _

theorem returns_isCredited (writes : AccountWrites) (deposit : DepositEvent) :
    Reads.Returns (answer store) (isCredited P writes deposit)
      (.ok (Node.isCredited P store writes deposit)) := by
  unfold isCredited Node.isCredited
  dsimp only
  cases (writes (depositReceiptAddress P deposit.l1Signature)).isSome with
  | true => exact .pure _
  | false => exact (returns_getAccount _).bind_ok (.pure _)

theorem returns_creditDeposit (writes : AccountWrites) (deposit : DepositEvent) :
    Reads.Returns (answer store) (creditDeposit P gasMint writes deposit)
      (orPanic (Node.creditDeposit P store gasMint writes deposit)) := by
  unfold creditDeposit Node.creditDeposit
  cases creditsNativeGas gasMint deposit.mint with
  | true => exact (returns_loadThrough writes _).bind_ok (.pure _)
  | false => exact returns_creditWrappedSpl _ _ _ _ _

theorem returns_applyDeposit (acc : AccountWrites × List DepositEvent) (deposit : DepositEvent) :
    Reads.Returns (answer store) (applyDeposit P gasMint acc deposit)
      (orPanic (Node.applyDeposit P store gasMint acc deposit)) := by
  refine (returns_isCredited acc.1 deposit).bind_ok ?_
  unfold Node.applyDeposit
  cases Node.isCredited P store acc.1 deposit with
  | true => exact .pure _
  | false => exact returns_bind_orPanic (returns_creditDeposit acc.1 deposit) fun _ => .pure _

theorem returns_applyDeposits (deposits : List DepositEvent) (writes : AccountWrites) :
    Reads.Returns (answer store) (applyDeposits P gasMint deposits writes)
      (orPanic (Node.applyDeposits P store gasMint deposits writes)) := by
  unfold applyDeposits Node.applyDeposits
  rw [orPanic_foldlM]
  exact .foldlM returns_applyDeposit _ _

end Deposits

/-! ## Withdrawals -/

section Withdrawals

variable (P : Prims)

/-- The committed account is read even if the block wrote it; if it cannot be read it is taken to
be missing. -/
def findThrough (writes : AccountWrites) (k : Pubkey) : StoreReads (Option StoredAccount) := do
  return (writes k).join.or (← findAccount k)

/-- The second half of `burn_wrapped_spl`. A mint that cannot be read refuses the withdrawal
after the tokens were taken off the account. -/
def burnSupply (l1Mint : Pubkey) (amount : UInt64) (writes : AccountWrites) :
    StoreReads (AccountWrites × Bool) := do
  let wmint := wrappedMintAddress P l1Mint
  match ← tryAccount wmint with
  | none => return (writes, false)
  | some committed =>
    match (writes wmint).join.or committed with
    | none => return (writes, true)
    | some mint =>
      let supply := ((mintSupply mint.data).getD 0).saturatingSub amount
      match setMintSupply mint.data supply with
      | none => .fail (.node .panic)
      | some data => return (writes.insert wmint (some { mint with data }), true)

/-- `burn_wrapped_spl(..).unwrap_or(false)`: an error of a read refuses the withdrawal. -/
def burnWrappedSpl (l1Mint owner : Pubkey) (amount : UInt64) (writes : AccountWrites) :
    StoreReads (AccountWrites × Bool) :=
  if amount = 0 then pure (writes, false)
  else do
    let ata := associatedTokenAddress P owner (wrappedMintAddress P l1Mint)
    match ← tryAccount ata with
    | none => return (writes, false)
    | some committed =>
      match (writes ata).join.or committed with
      | none => return (writes, false)
      | some account =>
        let bal := (tokenAccountAmount account.data).getD 0
        if bal < amount then return (writes, false)
        else
          match setTokenAccountAmount account.data (bal - amount) with
          | none => .fail (.node .panic)
          | some data => burnSupply P l1Mint amount (writes.insert ata (some { account with data }))

variable (gasMint : Option Pubkey) (feeCollector : Pubkey)

def burnAsset (w : WithdrawTx) (writes : AccountWrites) : StoreReads (AccountWrites × Bool) :=
  if w.isNative gasMint then pure (writes, true)
  else burnWrappedSpl P w.assetId w.feePayer w.amount writes

def burnWithdrawal (w : WithdrawTx) (writes : AccountWrites) :
    StoreReads (AccountWrites × Option UInt64) := do
  match ← findThrough writes w.feePayer with
  | none => return (writes, none)
  | some account =>
    if w.neededNative gasMint ≤ account.lamports ∧ 0 < w.amount then
      match ← burnAsset P gasMint w writes with
      | (writes, false) => return (writes, none)
      | (writes, true) =>
        let post := account.lamports - w.neededNative gasMint
        return (writes.insert w.feePayer (some { account with lamports := post }), some post)
    else return (writes, none)

def creditFee (writes : AccountWrites) : StoreReads AccountWrites := do
  let collector := (← findThrough writes feeCollector).getD (StoredAccount.newSystem 0)
  return writes.insert feeCollector
    (some { collector with lamports := collector.lamports.saturatingAdd POOL_TX_FEE })

def applyWithdraw (acc : Withdrawn) (w : WithdrawTx) : StoreReads Withdrawn := do
  match ← burnWithdrawal P gasMint w acc.writes with
  | (writes, some post) =>
    return {
      writes := ← creditFee feeCollector writes
      accepted := acc.accepted ++ [w]
      included := acc.included ++ [(w.transaction, poolMeta true none POOL_TX_FEE 0 post
        ["Program log: withdraw " ++ toString w.amount ++ " to L1, nonce " ++ toString w.nonce])] }
  | (writes, none) =>
    return { acc with
      writes
      included := acc.included ++ [(w.transaction,
        poolMeta false (some "insufficient balance for withdrawal") 0 0 0 [])] }

def applyWithdraws (withdraws : List WithdrawTx) (writes : AccountWrites)
    (included : List (VersionedTransaction × ExecutedTransactionMeta)) : StoreReads Withdrawn :=
  withdraws.foldlM (applyWithdraw P gasMint feeCollector) ⟨writes, included, []⟩

variable {P gasMint feeCollector} {store : Store}

theorem returns_findThrough (writes : AccountWrites) (k : Pubkey) :
    Reads.Returns (answer store) (findThrough writes k)
      (.ok (Node.loadThrough store writes k)) :=
  (returns_findAccount k).bind_ok (.pure _)

theorem returns_burnSupply (l1Mint : Pubkey) (amount : UInt64) (writes : AccountWrites) :
    Reads.Returns (answer store) (burnSupply P l1Mint amount writes)
      (orPanic ((Node.burnSupply P store l1Mint amount writes).bind fun out =>
        some (out, true))) := by
  refine (returns_tryAccount (wrappedMintAddress P l1Mint)).bind_ok ?_
  unfold Node.burnSupply Node.loadThrough
  dsimp only
  cases (writes (wrappedMintAddress P l1Mint)).join.or
      (store.getAccount (wrappedMintAddress P l1Mint)) with
  | none => exact .pure _
  | some mint =>
    dsimp only
    cases setMintSupply mint.data _ with
    | none => exact .fail _
    | some data => exact .pure _

theorem returns_burnWrappedSpl (l1Mint owner : Pubkey) (amount : UInt64)
    (writes : AccountWrites) :
    Reads.Returns (answer store) (burnWrappedSpl P l1Mint owner amount writes)
      (orPanic (Node.burnWrappedSpl P store l1Mint owner amount writes)) := by
  unfold burnWrappedSpl Node.burnWrappedSpl
  by_cases hzero : amount = 0
  · rw [if_pos hzero, if_pos hzero]
    exact .pure _
  · rw [if_neg hzero, if_neg hzero]
    refine (returns_tryAccount _).bind_ok ?_
    unfold Node.loadThrough
    dsimp only
    cases (writes (associatedTokenAddress P owner (wrappedMintAddress P l1Mint))).join.or
        (store.getAccount (associatedTokenAddress P owner (wrappedMintAddress P l1Mint))) with
    | none => exact .pure _
    | some account =>
      dsimp only
      by_cases hshort : (tokenAccountAmount account.data).getD 0 < amount
      · rw [if_pos hshort, if_pos hshort]
        exact .pure _
      · rw [if_neg hshort, if_neg hshort]
        cases setTokenAccountAmount account.data _ with
        | none => exact .fail _
        | some data => exact returns_burnSupply _ _ _

theorem returns_burnWithdrawal (w : WithdrawTx) (writes : AccountWrites) :
    Reads.Returns (answer store) (burnWithdrawal P gasMint w writes)
      (orPanic (Node.burnWithdrawal P store gasMint w writes)) := by
  refine (returns_findThrough writes w.feePayer).bind_ok ?_
  unfold Node.burnWithdrawal
  cases Node.loadThrough store writes w.feePayer with
  | none => exact .pure _
  | some account =>
    dsimp only
    by_cases hfunds : w.neededNative gasMint ≤ account.lamports ∧ 0 < w.amount
    · rw [if_pos hfunds, if_pos hfunds]
      have hburn : Reads.Returns (answer store) (burnAsset P gasMint w writes)
          (orPanic (Node.burnAsset P store gasMint w writes)) := by
        unfold burnAsset Node.burnAsset
        cases w.isNative gasMint with
        | true => exact .pure _
        | false => exact returns_burnWrappedSpl _ _ _ _
      rcases hasset : Node.burnAsset P store gasMint w writes with _ | ⟨burned, _ | _⟩
      all_goals rw [hasset] at hburn
      · exact hburn.bind_error
      · exact hburn.bind_ok (.pure _)
      · exact hburn.bind_ok (.pure _)
    · rw [if_neg hfunds, if_neg hfunds]
      exact .pure _

theorem returns_applyWithdraw (acc : Withdrawn) (w : WithdrawTx) :
    Reads.Returns (answer store) (applyWithdraw P gasMint feeCollector acc w)
      (orPanic (Node.applyWithdraw P store gasMint feeCollector acc w)) := by
  refine returns_bind_orPanic (returns_burnWithdrawal w acc.writes) fun burned => ?_
  obtain ⟨writes, _ | post⟩ := burned
  · exact .pure _
  · exact Reads.Returns.bind_ok ((returns_findThrough writes feeCollector).bind_ok (.pure _))
      (.pure _)

theorem returns_applyWithdraws (withdraws : List WithdrawTx) (writes : AccountWrites)
    (included : List (VersionedTransaction × ExecutedTransactionMeta)) :
    Reads.Returns (answer store) (applyWithdraws P gasMint feeCollector withdraws writes included)
      (orPanic (Node.applyWithdraws P store gasMint feeCollector withdraws writes included)) := by
  unfold applyWithdraws Node.applyWithdraws
  rw [orPanic_foldlM]
  exact .foldlM (returns_applyWithdraw) _ _

end Withdrawals

/-! ## Production -/

section Production

variable (E : Env) (machine : Machine) (choice : BlockChoice)

def draftBlock (tip : ChainTip) (transactions : List VersionedTransaction)
    (deposits : List DepositEvent) : StoreReads BlockDraft := do
  let (withdrawTxs, rest) := partitionWithdraws transactions
  let (poolTxs, regularTxs) := partition rest
  let output ← executeBlock E.svm machine E.feeCollector (blockInput choice tip regularTxs)
  let pool ← poolStage E choice.order poolTxs output.accountWrites output.included
  let (writes, credited) ← applyDeposits E.prims E.options.gasMint deposits pool.writes
  let withdrawn ← applyWithdraws E.prims E.options.gasMint E.feeCollector withdrawTxs writes
    pool.included
  return {
    writes := withdrawn.writes
    included := withdrawn.included
    nullifiers := pool.nullifiers
    credited
    accepted := withdrawn.accepted }

/-- Seal and commit a draft. The commit reads the latest slot before it writes. -/
def commitDraft (node : Node) (draft : BlockDraft) : StoreReads Node := do
  let accountWrites := choice.order.toList draft.writes
  let leafUpdates := accountWrites.map fun e => (e.1, e.2.map (·.hash E.prims e.1))
  let stateUpdate ← prepareStateUpdate E.prims leafUpdates
  let block := sealBlock E choice node.tip stateUpdate.newRoot draft
  let blockhash := block.header.hash E.prims
  let queue := node.tip.queue.register block.header.slot blockhash
  let _ ← ask .latestSlot
  match node.store.commitBlock E.prims block (draft.included.map Prod.snd) accountWrites stateUpdate
      queue draft.nullifiers with
  | .error e => .fail (.node (.store e))
  | .ok store =>
    let tip : ChainTip := ⟨queue, block.header.slot, blockhash, choice.timestampMs⟩
    if draft.accepted.isEmpty then return { node with store, tip }
    else
      let withdrawals := insertLeaves E.prims node.withdrawals draft.accepted
      return { node with
        store := store.setWithdrawalsRoot (WithdrawSmt.root E.prims withdrawals)
        tip
        withdrawals }

def produce (node : Node) (transactions : List VersionedTransaction)
    (deposits : List DepositEvent) : StoreReads Node := do
  let draft ← draftBlock E machine choice node.tip transactions deposits
  commitDraft E choice node draft

end Production

section Returns

variable {E : Env} {machine : Machine}

theorem returns_draftBlock (store : Store) (hmachine : machine.Runs E.svm) (choice : BlockChoice)
    (tip : ChainTip)
    (transactions : List VersionedTransaction) (deposits : List DepositEvent) :
    Reads.Returns (answer store) (draftBlock E machine choice tip transactions deposits)
      ((Node.draftBlock E choice store tip transactions deposits).mapError .node) := by
  unfold draftBlock Node.draftBlock
  dsimp only
  have hexec := returns_executeBlock store hmachine E.feeCollector
    (blockInput choice tip (partition (partitionWithdraws transactions).2).2)
  cases hout : Executor.executeBlock E.svm E.feeCollector store
      (blockInput choice tip (partition (partitionWithdraws transactions).2).2) with
  | error e =>
    rw [hout] at hexec
    exact hexec.bind_error
  | ok output =>
    rw [hout] at hexec
    refine hexec.bind_ok ?_
    dsimp only
    have hpool := returns_poolStage store E choice.order
      (partition (partitionWithdraws transactions).2).1 output.accountWrites output.included
    cases hstage : Node.poolStage E choice.order store
        (partition (partitionWithdraws transactions).2).1 output.accountWrites output.included with
    | error e =>
      rw [hstage] at hpool
      exact hpool.bind_error
    | ok pool =>
      rw [hstage] at hpool
      refine hpool.bind_ok ?_
      dsimp only
      have hdeposits := @returns_applyDeposits E.prims E.options.gasMint store deposits
        pool.writes
      cases hcredit : Node.applyDeposits E.prims store E.options.gasMint deposits pool.writes with
      | none =>
        rw [hcredit] at hdeposits
        exact hdeposits.bind_error
      | some credited =>
        rw [hcredit] at hdeposits
        refine hdeposits.bind_ok ?_
        dsimp only
        have hwithdraws := @returns_applyWithdraws E.prims E.options.gasMint E.feeCollector store
          (partitionWithdraws transactions).1 credited.1 pool.included
        cases hburn : Node.applyWithdraws E.prims store E.options.gasMint E.feeCollector
            (partitionWithdraws transactions).1 credited.1 pool.included with
        | none =>
          rw [hburn] at hwithdraws
          exact hwithdraws.bind_error
        | some withdrawn =>
          rw [hburn] at hwithdraws
          exact hwithdraws.bind_ok (.pure _)

theorem returns_commitDraft {node : Node}
    (choice : BlockChoice) (draft : BlockDraft) :
    Reads.Returns (answer node.store) (commitDraft E choice node draft)
      ((Node.commitDraft E choice node draft).mapError .node) := by
  unfold commitDraft Node.commitDraft
  dsimp only
  refine Reads.Returns.bind_ok (a := node.store.prepareStateUpdate E.prims _)
    (returns_prepareStateUpdate (answer node.store) _) ?_
  refine (returns_ask .latestSlot).bind_ok ?_
  cases node.store.commitBlock E.prims _ _ _ _ _ _ with
  | error e => exact .fail _
  | ok store =>
    dsimp only
    cases draft.accepted.isEmpty <;> exact .pure _

theorem returns_produce (hmachine : machine.Runs E.svm) (choice : BlockChoice) (node : Node)
    (transactions : List VersionedTransaction) (deposits : List DepositEvent) :
    Reads.Returns (answer node.store) (produce E machine choice node transactions deposits)
      ((Node.produce E choice node transactions deposits).mapError .node) := by
  have hdraft := returns_draftBlock node.store hmachine choice node.tip transactions deposits
  unfold produce Node.produce
  cases hd : Node.draftBlock E choice node.store node.tip transactions deposits with
  | error e =>
    rw [hd] at hdraft
    exact hdraft.bind_error
  | ok draft =>
    rw [hd] at hdraft
    exact hdraft.bind_ok (returns_commitDraft choice draft)

end Returns

end Reading

end Zul.Node
