import Zul.Privacy.Notes

/-! # The vault

What the vault holds of each asset, in the middle of a block and committed. An accepted
transaction leaves the vault at least what it had, with what is paid in and without what is paid
out; rejected ones leave it alone, and the commit keeps what the overlays say.
-/

namespace Zul.Privacy

namespace PoolService

section Definitions

variable (P : Prims) (cfg : PoolConfig)

def vaultBalance (store : Store) : Asset → ℕ
  | .native => (balance store (fun _ => none) cfg.vault).toNat
  | .spl mint => (amountOf (store.getAccount (tokenKey P mint cfg.vault))).toNat

def runningVault (store : Store) (r : Running) : Asset → ℕ
  | .native => (balance store r.overlay cfg.vault).toNat
  | .spl mint => (amountOf (r.tokenOverlay.onto store.getAccount (tokenKey P mint cfg.vault))).toNat

def owners (tx : Pubkey × PoolInstruction) : List Pubkey :=
  match tx.2 with
  | .unshield _ _ _ _ _ _ recipient _ => [tx.1, recipient]
  | _ => [tx.1]

/-- Assets and owners whose derived token accounts are apart from the pool's own accounts and
from the vault's token accounts. -/
structure Apart (assets : Set Asset) (owners : Set Pubkey) : Prop where
  vault_mem : cfg.vault ∈ owners
  vault_ne_state : cfg.vault ≠ cfg.poolState
  token_ne_state : ∀ mint, .spl mint ∈ assets → tokenKey P mint cfg.vault ≠ cfg.poolState
  token_ne_vault : ∀ mint, .spl mint ∈ assets → ∀ owner ∈ owners, tokenKey P mint owner ≠ cfg.vault
  token_injective : ∀ mint mint', .spl mint ∈ assets → .spl mint' ∈ assets → ∀ owner ∈ owners,
    tokenKey P mint owner = tokenKey P mint' cfg.vault → mint = mint' ∧ owner = cfg.vault

/-- A transaction over the given assets and owners that the vault does not pay for. -/
structure Admitted (assets : Set Asset) (accounts : Set Pubkey) (tx : Pubkey × PoolInstruction) :
    Prop where
  payer : tx.1 ≠ cfg.vault
  assets : ∀ a ∈ tx.2.assets, a ∈ assets
  owners : ∀ o ∈ owners tx, o ∈ accounts

structure Fits (store : Store) (r : Running) (tx : Pubkey × PoolInstruction) : Prop where
  lamports : Ledger.FitsAll (balance store r.overlay) (nativeMoves cfg tx)
  tokens : Ledger.ShiftFitsAll (fun k => amountOf (r.tokenOverlay.onto store.getAccount k))
    ((tokenMoves cfg tx).map (accountMove P))

end Definitions

variable {P : Prims} {V : ProofVerifier} {cfg : PoolConfig} {store : Store} {assets : Set Asset}
  {accounts : Set Pubkey} {r r' : Running} {tx : Pubkey × PoolInstruction}

/-! ## One transaction -/

theorem inflow_le_credits (tx : Pubkey × PoolInstruction) :
    tx.2.inflow .native ≤ Ledger.credits (nativeMoves cfg tx) cfg.vault := by
  obtain ⟨payer, instruction⟩ := tx
  rcases instruction with ⟨_ | mint, amount, secret, note⟩ | _ | _
  · simp only [PoolInstruction.inflow, nativeMoves, PoolInstruction.effects, List.flatMap_cons,
      List.flatMap_nil, List.append_nil, lamportMoves, Ledger.credits_cons, Ledger.credits_nil,
      if_true]
    omega
  all_goals exact Nat.zero_le _

theorem debits_le_outflow (hpayer : tx.1 ≠ cfg.vault) :
    Ledger.debits (nativeMoves cfg tx) cfg.vault ≤ tx.2.outflow .native := by
  obtain ⟨payer, instruction⟩ := tx
  rw [nativeMoves, Ledger.debits_cons, if_neg hpayer, Nat.zero_add]
  rcases instruction with ⟨_ | mint, amount, secret, note⟩ | ⟨proof, root, nfs, cms, fee, notes⟩ |
    ⟨proof, root, nf, change, _ | mint, amount, recipient, note⟩
  · simp [PoolInstruction.outflow, PoolInstruction.effects, lamportMoves,
      Ledger.debits_cons, hpayer]
  · simp [PoolInstruction.outflow, PoolInstruction.effects, lamportMoves]
  · simp only [PoolInstruction.outflow, PoolInstruction.effects]
    split <;> simp [lamportMoves, Ledger.debits_cons]
  · simp [PoolInstruction.outflow, PoolInstruction.effects, lamportMoves, Ledger.debits_cons]
  · simp [PoolInstruction.outflow, PoolInstruction.effects, lamportMoves]

theorem inflow_le_token_credits (tx : Pubkey × PoolInstruction) (mint : Bytes 32) :
    tx.2.inflow (.spl mint) ≤ Ledger.credits ((tokenMoves cfg tx).map (accountMove P))
      (tokenKey P mint cfg.vault) := by
  obtain ⟨payer, instruction⟩ := tx
  rcases instruction with ⟨_ | mint', amount, secret, note⟩ | _ | _
  · exact Nat.zero_le _
  · simp only [PoolInstruction.inflow, tokenMoves, PoolInstruction.effects, List.flatMap_cons,
      List.flatMap_nil, List.append_nil, wrappedMoves, List.map_cons, List.map_nil, accountMove,
      Ledger.credits_cons, Ledger.credits_nil, Asset.spl.injEq]
    split
    · rename_i heq
      rw [heq, if_pos rfl]
      exact Nat.le_refl _
    · exact Nat.zero_le _
  all_goals exact Nat.zero_le _

theorem token_debits_le_outflow (hapart : Apart P cfg assets accounts)
    (htx : Admitted cfg assets accounts tx) {mint : Bytes 32} (hmint : .spl mint ∈ assets) :
    Ledger.debits ((tokenMoves cfg tx).map (accountMove P)) (tokenKey P mint cfg.vault) ≤
      tx.2.outflow (.spl mint) := by
  obtain ⟨payer, instruction⟩ := tx
  rcases instruction with ⟨_ | mint', amount, secret, note⟩ | ⟨proof, root, nfs, cms, fee, notes⟩ |
    ⟨proof, root, nf, change, _ | mint', amount, recipient, note⟩
  · exact Nat.le_refl 0
  · -- a payer's token account is not the vault's
    have hmint' := htx.assets (.spl mint') (by simp [PoolInstruction.assets])
    have hne : tokenKey P mint' payer ≠ tokenKey P mint cfg.vault := fun heq =>
      htx.payer (hapart.token_injective mint' mint hmint' hmint payer
        (htx.owners payer (by simp [owners])) heq).2
    simp [PoolInstruction.outflow, tokenMoves, PoolInstruction.effects, wrappedMoves, accountMove,
      Ledger.debits_cons, hne]
  · simp only [tokenMoves, PoolInstruction.effects]
    split <;> exact Nat.le_refl 0
  · exact Nat.le_refl 0
  · have hmint' := htx.assets (.spl mint') (by simp [PoolInstruction.assets])
    simp only [PoolInstruction.outflow, tokenMoves, PoolInstruction.effects, List.flatMap_cons,
      List.flatMap_nil, List.append_nil, wrappedMoves, List.map_cons, List.map_nil, accountMove,
      Ledger.debits_cons, Ledger.debits_nil, Nat.add_zero, Asset.spl.injEq]
    split
    · rename_i heq
      rw [if_pos (hapart.token_injective mint' mint hmint' hmint _ hapart.vault_mem heq).1]
    · exact Nat.zero_le _

/-- An accepted transaction leaves the vault what it had, with its inflow and without its
outflow. -/
theorem vault_of_accepted (hapart : Apart P cfg assets accounts)
    (htx : Admitted cfg assets accounts tx) (hfits : Fits P cfg store r tx)
    (h : applyOne P V cfg store r tx.1 tx.2 = some (r', .ok ())) {a : Asset} (ha : a ∈ assets) :
    runningVault P cfg store r a + tx.2.inflow a ≤
      runningVault P cfg store r' a + tx.2.outflow a := by
  obtain ⟨-, -, hoverlay, htokens⟩ := applyOne_ok h
  cases a with
  | native =>
    have hmoves := Ledger.le_foldl_move hfits.lamports cfg.vault
    rw [← balance_moveAllLamports, ← hoverlay] at hmoves
    have hin := @inflow_le_credits cfg tx
    have hout := debits_le_outflow htx.payer
    simp only [runningVault]
    omega
  | spl mint =>
    have hmoves := Ledger.le_foldl_shift hfits.tokens (tokenKey P mint cfg.vault)
    rw [← (moveAllWrapped_spec htokens).2.2] at hmoves
    dsimp only at hmoves
    have hin := @inflow_le_token_credits P cfg tx mint
    have hout := token_debits_le_outflow hapart htx ha
    simp only [runningVault]
    omega

theorem vault_of_rejected {e : PoolServiceError}
    (h : applyOne P V cfg store r tx.1 tx.2 = some (r', .error e)) (a : Asset) :
    runningVault P cfg store r' a = runningVault P cfg store r a := by
  obtain ⟨hoverlay, htokens, -⟩ := applyOne_error h
  cases a with
  | native => rw [runningVault, runningVault, hoverlay]
  | spl mint => rw [runningVault, runningVault, htokens]

/-! ## Commit -/

variable (P) in
def TokenKeys (assets : Set Asset) (accounts : Set Pubkey)
    (tokens : PartialMap Pubkey StoredAccount) : Prop :=
  ∀ k, (tokens k).isSome → ∃ mint owner, .spl mint ∈ assets ∧ owner ∈ accounts ∧
    k = tokenKey P mint owner

theorem mem_tokenEndpoints (hapart : Apart P cfg assets accounts)
    (htx : Admitted cfg assets accounts tx) {k : Pubkey}
    (hk : k ∈ tokenEndpoints P (tokenMoves cfg tx)) :
    ∃ mint owner, .spl mint ∈ assets ∧ owner ∈ accounts ∧ k = tokenKey P mint owner := by
  have hpayer := htx.owners tx.1 (by unfold owners; split <;> simp)
  have hassets := htx.assets
  have howners := htx.owners
  obtain ⟨payer, instruction⟩ := tx
  rcases instruction with ⟨_ | mint, amount, secret, note⟩ | ⟨proof, root, nfs, cms, fee, notes⟩ |
    ⟨proof, root, nf, change, _ | mint, amount, recipient, note⟩
  · cases hk
  · have hmint := hassets (.spl mint) (by simp [PoolInstruction.assets])
    simp only [tokenEndpoints, tokenMoves, PoolInstruction.effects, wrappedMoves,
      List.flatMap_cons, List.flatMap_nil, List.append_nil, List.mem_cons, List.not_mem_nil,
      or_false] at hk
    rcases hk with rfl | rfl
    · exact ⟨mint, payer, hmint, hpayer, rfl⟩
    · exact ⟨mint, cfg.vault, hmint, hapart.vault_mem, rfl⟩
  · simp only [tokenMoves, PoolInstruction.effects] at hk
    split at hk <;> cases hk
  · cases hk
  · have hmint := hassets (.spl mint) (by simp [PoolInstruction.assets])
    simp only [tokenEndpoints, tokenMoves, PoolInstruction.effects, wrappedMoves,
      List.flatMap_cons, List.flatMap_nil, List.append_nil, List.mem_cons, List.not_mem_nil,
      or_false] at hk
    rcases hk with rfl | rfl
    · exact ⟨mint, cfg.vault, hmint, hapart.vault_mem, rfl⟩
    · exact ⟨mint, recipient, hmint, howners recipient (by simp [owners]), rfl⟩

theorem TokenKeys.applyOne {status : Except PoolServiceError Unit}
    (h : TokenKeys P assets accounts r.tokenOverlay) (hapart : Apart P cfg assets accounts)
    (htx : Admitted cfg assets accounts tx)
    (hone : PoolService.applyOne P V cfg store r tx.1 tx.2 = some (r', status)) :
    TokenKeys P assets accounts r'.tokenOverlay := by
  cases status with
  | error e =>
    obtain ⟨-, htokens, -⟩ := applyOne_error hone
    rwa [htokens]
  | ok =>
    obtain ⟨-, -, -, htokens⟩ := applyOne_ok hone
    intro k hk
    rcases ((moveAllWrapped_spec htokens).1 k).mp hk with hk | hk
    · exact h k hk
    · exact mem_tokenEndpoints hapart htx hk

/-- The account a block's writes leave at a key other than the pool state's: the token account,
the balance over the committed account, or what was there. -/
theorem foldl_assembleWrites {order : MapOrder} {dirty : Bool} {k : Pubkey}
    (hk : k ≠ cfg.poolState) :
    (assembleWrites P cfg order store r dirty).foldl Store.writeAccount store.accounts k =
      match r.tokenOverlay k with
      | some account => some account
      | none =>
        match r.overlay k with
        | some v => lamportWrite store k v
        | none => store.getAccount k := by
  have hstate : ∀ accounts : PartialMap Pubkey StoredAccount, (if dirty then
      [(cfg.poolState, some { (store.getAccount cfg.poolState).getD (genesisPoolAccount P) with
        data := r.ctx.state.toBytes })] else []).foldl Store.writeAccount accounts k =
          accounts k := by
    intro accounts
    split
    · rw [List.foldl_cons, List.foldl_nil, Store.writeAccount_apply, if_neg hk]
    · rfl
  rw [assembleWrites, List.foldl_append, List.foldl_append]
  refine (hstate _).trans ?_
  rw [Store.foldl_writeAccount ((order.enumerates r.overlay).map fun k v => lamportWrite store k v),
    Store.foldl_writeAccount ((order.enumerates r.tokenOverlay).map fun _ account => some account)]
  simp only [AccountWrites.applyTo]
  cases r.tokenOverlay k with
  | some account => rfl
  | none => cases r.overlay k <;> rfl

theorem amountOf_lamportWrite (store : Store) (k : Pubkey) (v : UInt64) :
    amountOf (lamportWrite store k v) = amountOf (store.getAccount k) := by
  unfold lamportWrite
  split
  · rename_i account haccount
    rw [haccount]
    rfl
  · rename_i hnone
    rw [hnone]
    split <;> rfl

theorem vaultBalance_commit {store' : Store} {order : MapOrder} {dirty : Bool}
    (hapart : Apart P cfg assets accounts) (hkeys : TokenKeys P assets accounts r.tokenOverlay)
    (hcommit : store'.accounts =
      (assembleWrites P cfg order store r dirty).foldl Store.writeAccount store.accounts)
    {a : Asset} (ha : a ∈ assets) :
    vaultBalance P cfg store' a = runningVault P cfg store r a := by
  cases a with
  | native =>
    have hnone : r.tokenOverlay cfg.vault = none := by
      by_contra hsome
      obtain ⟨mint, owner, hmint, howner, heq⟩ := hkeys cfg.vault
        (Option.isSome_iff_ne_none.mpr hsome)
      exact hapart.token_ne_vault mint hmint owner howner heq.symm
    have haccount : store'.getAccount cfg.vault = _ :=
      (congrFun hcommit cfg.vault).trans (foldl_assembleWrites hapart.vault_ne_state)
    rw [hnone] at haccount
    dsimp only at haccount
    rw [vaultBalance, runningVault, balance, balance, haccount]
    cases r.overlay cfg.vault with
    | none => rfl
    | some v =>
      dsimp only [lamportWrite]
      cases store.getAccount cfg.vault with
      | some account => rfl
      | none =>
        by_cases hv : v = 0 <;> simp [hv, StoredAccount.newSystem]
  | spl mint =>
    have haccount : store'.getAccount (tokenKey P mint cfg.vault) = _ :=
      (congrFun hcommit _).trans (foldl_assembleWrites (hapart.token_ne_state mint ha))
    rw [vaultBalance, runningVault, haccount, PartialMap.onto_apply]
    cases r.tokenOverlay (tokenKey P mint cfg.vault) with
    | some account => rfl
    | none =>
      cases r.overlay (tokenKey P mint cfg.vault) with
      | none => rfl
      | some v => exact congrArg UInt64.toNat (amountOf_lamportWrite store _ v)

end PoolService

end Zul.Privacy
