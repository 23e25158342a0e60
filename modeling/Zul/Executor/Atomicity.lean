import Zul.Executor.Block
import Zul.Store.Commit

/-! # Failed transactions

A transaction that fails after its instructions ran should leave only its fee and nonce behind.
The collecting loop takes the accounts as the instructions left them, whatever the status. The
committed accounts agree with the atomic reading exactly when no account was last written, in
the batch, by a failed transaction that left it different from its rolled-back state.
-/

namespace Zul.Executor

variable (R : SvmRuntime)

abbrev Entry := Except TransactionError ProcessedTransaction × CheckedTransaction

/-- What an atomic reading keeps of a result: of a failure only the rollback accounts. -/
def atomicAccounts (tx : VersionedTransaction) :
    Except TransactionError ProcessedTransaction → List (Pubkey × StoredAccount)
  | .error _ => []
  | .ok (.feesOnly _ rollbackAccounts _) => rollbackAccounts
  | .ok (.executed e) =>
    match e.status with
    | .ok _ => writableAccounts R tx e.accounts
    | .error _ => e.rollbackAccounts

def finalStates
    (take : VersionedTransaction → Except TransactionError ProcessedTransaction →
      List (Pubkey × StoredAccount))
    (entries : List Entry) : PartialMap Pubkey StoredAccount :=
  PartialMap.insertAll (fun _ => none) (entries.flatMap fun e => take e.2.transaction e.1)

def feesOf (entries : List Entry) : UInt64 :=
  entries.foldl
    (fun fees e => match e.1 with
      | .error _ => fees
      | .ok (.feesOnly fee _ _) => fees.saturatingAdd fee
      | .ok (.executed e) => fees.saturatingAdd e.fee)
    0

def batchEntries (store : Store) (input : BlockExecutionInput) :
    Except StoreError (List Entry) := do
  let checks ← input.transactions.foldlM (checkOne R store input.queue) ⟨[], [], []⟩
  return (R.loadAndExecute (callback R store input) input.slot input.parentBlockhash
    checks.batch).zip checks.batch

/-- The accounts committed when the batch leaves the given final states. -/
def committedAccounts (collector : Pubkey) (store : Store) (input : BlockExecutionInput)
    (fees : UInt64) (finalAccounts : PartialMap Pubkey StoredAccount) :
    PartialMap Pubkey StoredAccount :=
  (mergeWrites (blockOverlay R input)
    (creditCollector collector (callback R store input) fees finalAccounts)).applyTo
      store.getAccount

/-- The committed state of one account whose final state in the batch is `state`. -/
def settle (collector : Pubkey) (store : Store) (input : BlockExecutionInput) (fees : UInt64)
    (k : Pubkey) (state : Option StoredAccount) : Option StoredAccount :=
  committedAccounts R collector store input fees (Function.update (fun _ => none) k state) k

theorem committedAccounts_apply (collector : Pubkey) (store : Store) (input : BlockExecutionInput)
    (fees : UInt64) (finalAccounts : PartialMap Pubkey StoredAccount) (k : Pubkey) :
    committedAccounts R collector store input fees finalAccounts k =
      settle R collector store input fees k (finalAccounts k) := by
  unfold settle committedAccounts AccountWrites.applyTo mergeWrites creditCollector
  split
  · by_cases hk : k = collector
    · subst hk; simp
    · simp [PartialMap.insert_of_ne _ _ hk]
  · simp

/-! ## The collecting loop -/

theorem collect_finalAccounts (view : PartialMap Pubkey StoredAccount) (entries : List Entry)
    (c : Collected) :
    (entries.foldl (collectOne R view) c).finalAccounts =
      c.finalAccounts.insertAll
        (entries.flatMap fun e => collectedAccounts R e.2.transaction e.1) := by
  induction entries generalizing c with
  | nil => rfl
  | cons e entries ih =>
    rw [List.foldl_cons, ih, List.flatMap_cons, PartialMap.insertAll_append]
    obtain ⟨result, tx⟩ := e
    rcases result with _ | _ | _ <;> rfl

theorem collect_feesCollected (view : PartialMap Pubkey StoredAccount) (entries : List Entry)
    (dropped : List (Signature × TransactionError)) :
    (entries.foldl (collectOne R view) ⟨fun _ => none, [], dropped, 0⟩).feesCollected =
      feesOf entries := by
  rw [feesOf]
  generalize hc : (⟨fun _ => none, [], dropped, 0⟩ : Collected) = c
  have hfees : c.feesCollected = 0 := by rw [← hc]
  rw [← hfees]
  clear hc hfees
  induction entries generalizing c with
  | nil => rfl
  | cons e entries ih =>
    rw [List.foldl_cons, List.foldl_cons, ih]
    obtain ⟨result, tx⟩ := e
    rcases result with _ | _ | _ <;> rfl

theorem executeBlock_spec {collector : Pubkey} {store : Store} {input : BlockExecutionInput}
    {out : BlockExecutionOutput} (h : executeBlock R collector store input = .ok out) :
    ∃ entries, batchEntries R store input = .ok entries ∧
      out.accountWrites = mergeWrites (blockOverlay R input)
        (creditCollector collector (callback R store input) (feesOf entries)
          (finalStates (collectedAccounts R) entries)) := by
  unfold executeBlock at h
  cases hc : input.transactions.foldlM (checkOne R store input.queue) ⟨[], [], []⟩ with
  | error e => rw [hc] at h; cases h
  | ok checks =>
    rw [hc] at h
    cases h
    refine ⟨_, by rw [batchEntries, hc]; rfl, ?_⟩
    simp only [collect_finalAccounts, collect_feesCollected]
    rfl

/-! ## Who wrote an account last -/

/-- The machine rolls back only accounts the message lists as writable: fee payer and nonce. -/
def SvmRuntime.RollbackListed : Prop :=
  ∀ view slot hash batch, ∀ entry ∈ (R.loadAndExecute view slot hash batch).zip batch, ∀ e,
    entry.1 = .ok (.executed e) → ∀ k ∈ e.rollbackAccounts.map Prod.fst,
      k ∈ (writableAccounts R entry.2.transaction e.accounts).map Prod.fst

/-- Whether a result is a transaction that failed in one of its instructions. -/
def FailedExecution (entry : Entry) : Prop :=
  ∃ e err, entry.1 = .ok (.executed e) ∧ e.status = .error err

/-- No account's last state in the batch is one that a failed transaction left and that
settles differently from the state rolled back to. -/
def FailuresRolledBack (collector : Pubkey) (store : Store) (input : BlockExecutionInput)
    (entries : List Entry) : Prop :=
  ∀ before entry after, entries = before ++ entry :: after → FailedExecution entry →
    ∀ k account, finalStates (collectedAccounts R) [entry] k = some account →
      finalStates (collectedAccounts R) after k = none →
      settle R collector store input (feesOf entries) k (some account) =
        settle R collector store input (feesOf entries) k
          (finalStates (atomicAccounts R) (before ++ [entry]) k)

variable {R}

theorem finalStates_append
    (take : VersionedTransaction → Except TransactionError ProcessedTransaction →
      List (Pubkey × StoredAccount))
    (l l' : List Entry) (k : Pubkey) :
    finalStates take (l ++ l') k = (finalStates take l' k).or (finalStates take l k) := by
  rw [finalStates, List.flatMap_append, PartialMap.insertAll_append, PartialMap.insertAll_apply]
  rfl

theorem atomicAccounts_eq {entry : Entry} (h : ¬ FailedExecution entry) :
    atomicAccounts R entry.2.transaction entry.1 =
      collectedAccounts R entry.2.transaction entry.1 := by
  obtain ⟨result, tx⟩ := entry
  rcases result with _ | _ | e
  · rfl
  · rfl
  · cases hs : e.status with
    | ok u => simp only [atomicAccounts, collectedAccounts, hs]
    | error err => exact absurd ⟨e, err, rfl, hs⟩ h

theorem finalStates_atomic_eq {entry : Entry} (h : ¬ FailedExecution entry) :
    finalStates (atomicAccounts R) [entry] = finalStates (collectedAccounts R) [entry] := by
  simp only [finalStates, List.flatMap_cons, List.flatMap_nil, atomicAccounts_eq h]

/-- Every rolled-back account of an entry is also collected from it. -/
def RollbackCollected (R : SvmRuntime) (entry : Entry) : Prop :=
  ∀ k, finalStates (collectedAccounts R) [entry] k = none →
    finalStates (atomicAccounts R) [entry] k = none

theorem rollbackCollected_of_listed (hR : R.RollbackListed) {store : Store}
    {input : BlockExecutionInput} {entries : List Entry}
    (h : batchEntries R store input = .ok entries) :
    ∀ entry ∈ entries, RollbackCollected R entry := by
  intro entry hmem k hk
  unfold batchEntries at h
  cases hc : input.transactions.foldlM (checkOne R store input.queue) ⟨[], [], []⟩ with
  | error e => rw [hc] at h; cases h
  | ok checks =>
    rw [hc] at h
    cases h
    by_cases hfail : FailedExecution entry
    · obtain ⟨e, err, he, hs⟩ := hfail
      simp only [finalStates, List.flatMap_cons, List.flatMap_nil, List.append_nil,
        PartialMap.insertAll_eq_none_iff, he, collectedAccounts, atomicAccounts, hs] at hk ⊢
      exact fun hin => hk (hR _ _ _ _ entry hmem e he k hin)
    · rwa [finalStates_atomic_eq hfail]

theorem last_collector {entries : List Entry} (hR : ∀ entry ∈ entries, RollbackCollected R entry)
    (k : Pubkey) :
    finalStates (collectedAccounts R) entries k = finalStates (atomicAccounts R) entries k ∨
    ∃ before entry after account, entries = before ++ entry :: after ∧ FailedExecution entry ∧
      finalStates (collectedAccounts R) [entry] k = some account ∧
      finalStates (collectedAccounts R) after k = none := by
  -- walk the batch from its end to the last result that collects the account
  induction entries using List.reverseRecOn with
  | nil => exact .inl rfl
  | append_singleton l entry ih =>
    have hlast := hR entry (by simp)
    rw [finalStates_append, finalStates_append]
    cases hk : finalStates (collectedAccounts R) [entry] k with
    | none =>
      rw [hlast k hk, Option.none_or, Option.none_or]
      rcases ih fun e he => hR e (by simp [he]) with heq | ⟨before, e, after, a, rfl, hf, ha, hn⟩
      · exact .inl heq
      · refine .inr ⟨before, e, after ++ [entry], a, by simp, hf, ha, ?_⟩
        rw [finalStates_append, hk, hn, Option.or_none]
    | some account =>
      by_cases hfail : FailedExecution entry
      · exact .inr ⟨l, entry, [], account, rfl, hfail, hk, rfl⟩
      · left
        rw [finalStates_atomic_eq hfail, hk, Option.some_or, Option.some_or]

theorem finalStates_atomic_none {entries : List Entry}
    (hR : ∀ entry ∈ entries, RollbackCollected R entry) {k : Pubkey}
    (h : finalStates (collectedAccounts R) entries k = none) :
    finalStates (atomicAccounts R) entries k = none := by
  induction entries using List.reverseRecOn with
  | nil => rfl
  | append_singleton l entry ih =>
    rw [finalStates_append, Option.or_eq_none_iff] at h ⊢
    exact ⟨hR entry (by simp) k h.1, ih (fun e he => hR e (by simp [he])) h.2⟩

theorem finalStates_of_last (before : List Entry) {after : List Entry} {entry : Entry} {k : Pubkey}
    {account : StoredAccount} (hR : ∀ entry ∈ after, RollbackCollected R entry)
    (ha : finalStates (collectedAccounts R) [entry] k = some account)
    (hn : finalStates (collectedAccounts R) after k = none) :
    finalStates (collectedAccounts R) (before ++ entry :: after) k = some account ∧
    finalStates (atomicAccounts R) (before ++ entry :: after) k =
      finalStates (atomicAccounts R) (before ++ [entry]) k := by
  rw [← List.singleton_append, ← List.append_assoc]
  simp only [finalStates_append _ _ after, hn, finalStates_atomic_none hR hn, Option.none_or,
    finalStates_append _ before, ha, Option.some_or, and_self]

/-- The committed accounts are those of the atomic reading exactly when no account was last
written by a failed transaction that left it different from its rolled-back state. -/
theorem executeBlock_atomic_iff (hR : R.RollbackListed) (collector : Pubkey) (store : Store)
    (input : BlockExecutionInput) {out : BlockExecutionOutput}
    (h : executeBlock R collector store input = .ok out) :
    ∃ entries, batchEntries R store input = .ok entries ∧
      (out.accountWrites.applyTo store.getAccount =
          committedAccounts R collector store input (feesOf entries)
            (finalStates (atomicAccounts R) entries) ↔
        FailuresRolledBack R collector store input entries) := by
  obtain ⟨entries, hentries, hout⟩ := executeBlock_spec R h
  have hroll := rollbackCollected_of_listed hR hentries
  refine ⟨entries, hentries, ?_⟩
  rw [hout, ← committedAccounts, funext_iff]
  simp only [committedAccounts_apply]
  constructor
  · rintro heq before entry after rfl - k account ha hn
    obtain ⟨hcode, hatomic⟩ := finalStates_of_last before
      (fun e he => hroll e (by simp [he])) ha hn
    have := heq k
    rwa [hcode, hatomic] at this
  · intro hset k
    rcases last_collector hroll k with heq | ⟨before, entry, after, account, rfl, hf, ha, hn⟩
    · rw [heq]
    · obtain ⟨hcode, hatomic⟩ := finalStates_of_last before
        (fun e he => hroll e (by simp [he])) ha hn
      rw [hcode, hatomic]
      exact hset before entry after rfl hf k account ha hn

/-! ## A transfer followed by a failing instruction -/

/-- The results for a message whose first instruction moves 100 lamports from the first key to
the second and whose second instruction fails. -/
def transferThenFail (view : PartialMap Pubkey StoredAccount) (c : CheckedTransaction) :
    Except TransactionError ProcessedTransaction :=
  match c.transaction.message.staticAccountKeys with
  | payer :: recipient :: _ =>
    match view payer with
    | some account =>
      let charged := { account with lamports := account.lamports - c.transactionFee }
      let credited := (view recipient).getD (StoredAccount.newSystem 0)
      .ok (.executed {
        fee := c.transactionFee
        accounts := [(payer, { charged with lamports := charged.lamports - 100 }),
          (recipient, { credited with lamports := credited.lamports + 100 })]
        rollbackAccounts := [(payer, charged)]
        status := .error (.instructionError 1 0)
        executedUnits := 300
        logMessages := none })
    | none => .error (.runtime 2)
  | _ => .error (.runtime 8)

/-- A machine for batches of such messages; the first two keys are writable. -/
def failingRuntime : SvmRuntime where
  verifyAndHashMessage _ := true
  tryCreate _ := .ok ()
  isWritable _ i := i < 2
  computeBudget _ := .ok 0
  signatureCount _ := 1
  getEpoch slot := slot / 432000
  loadAndExecute view _ _ batch := batch.map (transferThenFail view)

theorem failingRuntime_rollbackListed : failingRuntime.RollbackListed := by
  intro view slot hash batch entry hmem e he k hk
  simp only [failingRuntime, ← List.map_prod_right_eq_zip, List.mem_map] at hmem
  obtain ⟨c, -, rfl⟩ := hmem
  simp only [transferThenFail] at he
  split at he
  · split at he
    · cases he
      simp only [List.map_cons, List.map_nil, List.mem_singleton] at hk
      subst hk
      simp [writableAccounts, failingRuntime, List.zipIdx]
    · cases he
  · cases he

def failurePayer : Pubkey := Bytes.replicate 32 1

def failureRecipient : Pubkey := Bytes.replicate 32 2

def failureStore : Store :=
  { Store.empty with
    accounts := PartialMap.insert (fun _ => none) failurePayer (StoredAccount.newSystem 1000000) }

def failureInput : BlockExecutionInput where
  slot := 1
  timestampMs := 1760000000000
  parentBlockhash := Bytes.replicate 32 7
  transactions :=
    [{ signatures := [Bytes.replicate 64 9]
       message := {
        header := ⟨1, 0, 1⟩
        staticAccountKeys := [failurePayer, failureRecipient, StoredAccount.systemProgramId]
        recentBlockhash := Bytes.replicate 32 7
        instructions := [⟨2, [0, 1], [2, 0, 0, 0, 100, 0, 0, 0, 0, 0, 0, 0]⟩, ⟨2, [0], [255]⟩] } }]
  queue := BlockhashQueue.new.register 0 (Bytes.replicate 32 7)

/-- The failed transfer is committed: the recipient keeps the 100 lamports. -/
theorem failed_transfer_commits : ∃ out entries,
    executeBlock failingRuntime (Bytes.replicate 32 3) failureStore failureInput = .ok out ∧
    batchEntries failingRuntime failureStore failureInput = .ok entries ∧
    out.accountWrites.applyTo failureStore.getAccount failureRecipient =
      some (StoredAccount.newSystem 100) ∧
    committedAccounts failingRuntime (Bytes.replicate 32 3) failureStore failureInput
      (feesOf entries) (finalStates (atomicAccounts failingRuntime) entries) failureRecipient =
      none := by
  refine ⟨_, _, rfl, rfl, ?_, ?_⟩ <;> decide

/-- The theorem at the failing batch: its condition is violated there. -/
theorem failed_transfer_not_rolledBack : ∃ entries,
    batchEntries failingRuntime failureStore failureInput = .ok entries ∧
    ¬ FailuresRolledBack failingRuntime (Bytes.replicate 32 3) failureStore failureInput
      entries := by
  obtain ⟨entries, hentries, hiff⟩ := executeBlock_atomic_iff failingRuntime_rollbackListed
    (Bytes.replicate 32 3) failureStore failureInput rfl
  refine ⟨entries, hentries, fun hroll => ?_⟩
  have := congrFun (hiff.mpr hroll) failureRecipient
  cases hentries
  revert this
  decide

end Zul.Executor
