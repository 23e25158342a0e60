import Zul.Store.Store

/-! # Committed state

What a block commit leaves in the store. The writes of a block come from a hash map, so the
committed accounts are the same for every order the map is drained in.
-/

namespace Zul

def AccountWrites.applyTo (writes : AccountWrites) (accounts : PartialMap Pubkey StoredAccount) :
    PartialMap Pubkey StoredAccount := fun k => (writes k).getD (accounts k)

theorem AccountWrites.applyTo_some {writes : AccountWrites} {k : Pubkey} {w : Option StoredAccount}
    (h : writes k = some w) (accounts : PartialMap Pubkey StoredAccount) :
    writes.applyTo accounts k = w := by
  rw [applyTo, h, Option.getD_some]

theorem AccountWrites.applyTo_none {writes : AccountWrites} {k : Pubkey} (h : writes k = none)
    (accounts : PartialMap Pubkey StoredAccount) : writes.applyTo accounts k = accounts k := by
  rw [applyTo, h, Option.getD_none]

namespace Store

theorem writeAccount_apply (accounts : PartialMap Pubkey StoredAccount)
    (write : Pubkey × Option StoredAccount) (k : Pubkey) :
    writeAccount accounts write k = if k = write.1 then write.2 else accounts k := by
  obtain ⟨j, account⟩ := write
  cases account <;> simp [writeAccount, PartialMap.insert, PartialMap.remove, Function.update_apply]

theorem foldl_writeAccount {l : List (Pubkey × Option StoredAccount)} {writes : AccountWrites}
    (h : PartialMap.Enumerates l writes) (accounts : PartialMap Pubkey StoredAccount) :
    l.foldl writeAccount accounts = writes.applyTo accounts := by
  have hstep : writeAccount = fun (w : PartialMap Pubkey StoredAccount)
      (e : Pubkey × Option StoredAccount) => Function.update w e.1
        ((fun _ v => v) (w e.1) e.2) := by
    funext w ⟨k, v⟩
    cases v <;> rfl
  rw [hstep, PartialMap.foldl_mergeWith h (fun _ v => v)]
  funext k
  cases hk : writes k with
  | some w => rw [PartialMap.mergeWith_some hk, AccountWrites.applyTo_some hk]
  | none => rw [PartialMap.mergeWith_none hk, AccountWrites.applyTo_none hk]

theorem getTransaction_eq_none_iff {s : Store} {sig : Signature} :
    s.getTransaction sig = .ok none ↔ s.txLoc sig = none := by
  unfold getTransaction
  cases s.txLoc sig with
  | none => simp
  | some loc =>
    simp only [reduceCtorEq, iff_false]
    split <;> [simp; skip]
    split <;> [simp; skip]
    split <;> simp

/-! ## One block -/

theorem indexTransaction_ok {slot : UInt64} {s s' : Store}
    {entry : (VersionedTransaction × ExecutedTransactionMeta) × ℕ}
    (h : indexTransaction slot s entry = .ok s') :
    ∃ sig, entry.1.1.signature = some sig ∧
      s' = { s with
        txLoc := s.txLoc.insert sig ⟨slot, UInt32.ofNat entry.2⟩
        txMeta := s.txMeta.insert sig entry.1.2
        addrSigs := s'.addrSigs } := by
  unfold indexTransaction at h
  split at h
  · cases h
  · rename_i sig hsig
    cases h
    exact ⟨sig, hsig, rfl⟩

/-- What indexing a block's transactions leaves: the other tables as they were, and a locator
for exactly the signatures that had one or are in the block. -/
structure Indexed (entries : List ((VersionedTransaction × ExecutedTransactionMeta) × ℕ))
    (s s' : Store) : Prop where
  accounts : s'.accounts = s.accounts
  blocks : s'.blocks = s.blocks
  nullifiers : s'.nullifiers = s.nullifiers
  genesisHash : s'.genesisHash = s.genesisHash
  signed : ∀ e ∈ entries, e.1.1.signature.isSome
  txLoc_eq_none : ∀ sig, s'.txLoc sig = none ↔
    s.txLoc sig = none ∧ ∀ e ∈ entries, e.1.1.signature ≠ some sig

theorem indexAll_spec {slot : UInt64}
    {entries : List ((VersionedTransaction × ExecutedTransactionMeta) × ℕ)} {s s' : Store}
    (h : entries.foldlM (indexTransaction slot) s = .ok s') : Indexed entries s s' := by
  induction entries generalizing s with
  | nil => cases h; exact ⟨rfl, rfl, rfl, rfl, by simp, by simp⟩
  | cons e entries ih =>
    rw [List.foldlM_cons] at h
    cases he : indexTransaction slot s e with
    | error err => rw [he] at h; cases h
    | ok s₁ =>
      rw [he] at h
      obtain ⟨ha, hb, hn, hg, hsig, hloc⟩ := ih h
      obtain ⟨sig, hes, hs₁⟩ := indexTransaction_ok he
      rw [hs₁] at ha hb hn hg
      refine ⟨ha, hb, hn, hg, ?_, fun x => ?_⟩
      · simpa [hes] using hsig
      · rw [hloc x, hs₁]
        simp only [PartialMap.insert_apply, List.forall_mem_cons, hes, ne_eq, Option.some.injEq]
        by_cases hx : x = sig
        · simp [hx]
        · simp [hx, Ne.symm hx]

theorem indexAll_frame {slot : UInt64}
    {entries : List ((VersionedTransaction × ExecutedTransactionMeta) × ℕ)} {s s' : Store}
    (h : entries.foldlM (indexTransaction slot) s = .ok s') :
    s' = { s with txLoc := s'.txLoc, txMeta := s'.txMeta, addrSigs := s'.addrSigs } := by
  induction entries generalizing s with
  | nil =>
    cases h
    rfl
  | cons e entries ih =>
    rw [List.foldlM_cons] at h
    cases he : indexTransaction slot s e with
    | error err =>
      rw [he] at h
      cases h
    | ok s₁ =>
      rw [he] at h
      obtain ⟨sig, -, hs₁⟩ := indexTransaction_ok he
      have hrest := ih h
      rw [hs₁] at hrest
      exact hrest

/-- Where indexing a block puts its transactions: an entry whose signature does not repeat is
found under it, and other signatures are as before. -/
theorem indexAll_lookup {slot : UInt64}
    {entries : List ((VersionedTransaction × ExecutedTransactionMeta) × ℕ)} {s s' : Store}
    (h : entries.foldlM (indexTransaction slot) s = .ok s') :
    (∀ sig, (∀ e ∈ entries, e.1.1.signature ≠ some sig) →
      s'.txLoc sig = s.txLoc sig ∧ s'.txMeta sig = s.txMeta sig) ∧
    ((entries.map (·.1.1.signature)).Nodup → ∀ e ∈ entries, ∀ sig, e.1.1.signature = some sig →
      s'.txLoc sig = some ⟨slot, UInt32.ofNat e.2⟩ ∧ s'.txMeta sig = some e.1.2) := by
  induction entries generalizing s with
  | nil =>
    cases h
    exact ⟨fun _ _ => ⟨rfl, rfl⟩, by simp⟩
  | cons e entries ih =>
    rw [List.foldlM_cons] at h
    cases he : indexTransaction slot s e with
    | error err =>
      rw [he] at h
      cases h
    | ok s₁ =>
      rw [he] at h
      obtain ⟨hother, hfound⟩ := ih h
      obtain ⟨sig₁, hsig₁, hs₁⟩ := indexTransaction_ok he
      constructor
      · intro sig hsig
        obtain ⟨hloc, hmeta⟩ := hother sig fun e he => hsig e (by simp [he])
        have hne : sig ≠ sig₁ := fun heq => hsig e (by simp) (heq ▸ hsig₁)
        rw [hloc, hmeta, hs₁]
        exact ⟨PartialMap.insert_of_ne _ _ hne, PartialMap.insert_of_ne _ _ hne⟩
      · intro hnodup e' he' sig hsig
        rw [List.map_cons, List.nodup_cons] at hnodup
        rcases List.mem_cons.mp he' with rfl | he'
        · have hfresh : ∀ e ∈ entries, e.1.1.signature ≠ some sig := fun e he heq =>
            hnodup.1 (List.mem_map.mpr ⟨e, he, heq.trans hsig.symm⟩)
          obtain ⟨hloc, hmeta⟩ := hother sig hfresh
          rw [hsig₁] at hsig
          cases hsig
          rw [hloc, hmeta, hs₁]
          exact ⟨PartialMap.insert_self .., PartialMap.insert_self ..⟩
        · exact hfound hnodup.2 e' he' sig hsig

structure Committed (s : Store) (block : Block)
    (accountWrites : List (Pubkey × Option StoredAccount)) (s' : Store) : Prop where
  slot_gt : ∀ latest, s.latestSlot = some latest → latest < block.header.slot
  signed : ∀ tx ∈ block.transactions, tx.signature.isSome
  accounts : s'.accounts = accountWrites.foldl writeAccount s.accounts
  blocks : s'.blocks = s.blocks.insert block.header.slot block
  latestSlot : s'.latestSlot = some block.header.slot
  genesisHash : s'.genesisHash = s.genesisHash
  txLoc_eq_none : ∀ sig, s'.txLoc sig = none ↔
    s.txLoc sig = none ∧ ∀ tx ∈ block.transactions, tx.signature ≠ some sig

theorem Committed.bounded {s s' : Store} {block : Block}
    {accountWrites : List (Pubkey × Option StoredAccount)}
    (hc : Committed s block accountWrites s')
    (h : ∀ slot b, s.blocks slot = some b → ∃ latest, s.latestSlot = some latest ∧ slot ≤ latest)
    (slot : UInt64) (b : Block) (hb : s'.blocks slot = some b) :
    ∃ latest, s'.latestSlot = some latest ∧ slot ≤ latest := by
  refine ⟨_, hc.latestSlot, ?_⟩
  rw [hc.blocks, PartialMap.insert_apply] at hb
  split at hb
  · rename_i hslot
    exact UInt64.le_of_eq hslot
  · obtain ⟨latest, hl, hle⟩ := h slot b hb
    exact UInt64.le_trans hle (UInt64.le_of_lt (hc.slot_gt latest hl))

private theorem forall_mem_entries {txs : List VersionedTransaction}
    {metas : List ExecutedTransactionMeta} (hlen : metas.length = txs.length)
    (p : VersionedTransaction → Prop) :
    (∀ e ∈ (txs.zip metas).zipIdx, p e.1.1) ↔ ∀ tx ∈ txs, p tx := by
  have hmap : ((txs.zip metas).zipIdx).map (fun e => e.1.1) = txs := by
    rw [show (fun e : (VersionedTransaction × ExecutedTransactionMeta) × ℕ => e.1.1) =
      Prod.fst ∘ Prod.fst from rfl, ← List.map_map, List.zipIdx_map_fst,
      List.map_fst_zip hlen.ge]
  conv_rhs => rw [← hmap]
  simp only [List.forall_mem_map]

theorem commitBlock_spec {P : Prims} {s s' : Store} {block : Block}
    {metas : List ExecutedTransactionMeta} {accountWrites : List (Pubkey × Option StoredAccount)}
    {stateUpdate : Smt.StateUpdate} {queue : BlockhashQueue} {nullifiers : List H256}
    (h : s.commitBlock P block metas accountWrites stateUpdate queue nullifiers = .ok s') :
    Committed s block accountWrites s' := by
  unfold commitBlock at h
  split_ifs at h with hlen hroot hslot
  simp only [ne_eq, not_not, Option.any_eq_true, decide_eq_true_eq, not_exists, not_and]
    at hlen hslot
  dsimp only at h
  split at h
  · cases h
  · rename_i indexed hindexed
    obtain ⟨ha, hb, -, hg, hsig, hloc⟩ := indexAll_spec hindexed
    cases h
    refine ⟨fun latest hl => UInt64.not_le.mp (hslot latest hl), ?_, ha, hb, rfl, hg, fun sig => ?_⟩
    · exact (forall_mem_entries hlen (fun tx => tx.signature.isSome)).mp hsig
    · rw [hloc, forall_mem_entries hlen (fun tx => tx.signature ≠ some sig)]

theorem commitBlock_frame {P : Prims} {s s' : Store} {block : Block}
    {metas : List ExecutedTransactionMeta} {accountWrites : List (Pubkey × Option StoredAccount)}
    {stateUpdate : Smt.StateUpdate} {queue : BlockhashQueue} {nullifiers : List H256}
    (h : s.commitBlock P block metas accountWrites stateUpdate queue nullifiers = .ok s') :
    s' = { s with
      accounts := accountWrites.foldl writeAccount s.accounts
      smtNodes := writeSmtNodes P s.smtNodes stateUpdate
      blocks := s.blocks.insert block.header.slot block
      nullifiers := nullifiers.foldl (fun t n => t.insert n block.header.slot) s.nullifiers
      latestSlot := some block.header.slot
      stateRoot := some stateUpdate.newRoot
      blockhashQueue := some queue.toBytes
      txLoc := s'.txLoc, txMeta := s'.txMeta, addrSigs := s'.addrSigs } := by
  unfold commitBlock at h
  split_ifs at h
  dsimp only at h
  split at h
  · cases h
  · rename_i indexed hindexed
    have hframe := indexAll_frame hindexed
    cases h
    rw [hframe]

theorem commitBlock_lookup {P : Prims} {s s' : Store} {block : Block}
    {metas : List ExecutedTransactionMeta} {accountWrites : List (Pubkey × Option StoredAccount)}
    {stateUpdate : Smt.StateUpdate} {queue : BlockhashQueue} {nullifiers : List H256}
    (h : s.commitBlock P block metas accountWrites stateUpdate queue nullifiers = .ok s') :
    (∀ sig, (∀ tx ∈ block.transactions, tx.signature ≠ some sig) →
      s'.txLoc sig = s.txLoc sig ∧ s'.txMeta sig = s.txMeta sig) ∧
    ((block.transactions.map (·.signature)).Nodup → ∀ i tx txMeta,
      (block.transactions.zip metas)[i]? = some (tx, txMeta) → ∀ sig, tx.signature = some sig →
      s'.txLoc sig = some ⟨block.header.slot, UInt32.ofNat i⟩ ∧ s'.txMeta sig = some txMeta) := by
  unfold commitBlock at h
  split_ifs at h with hlen
  dsimp only at h
  split at h
  · cases h
  · rename_i indexed hindexed
    obtain ⟨hother, hfound⟩ := indexAll_lookup hindexed
    cases h
    simp only [ne_eq, not_not] at hlen
    have hsigs : ((block.transactions.zip metas).zipIdx.map (·.1.1.signature)) =
        block.transactions.map (·.signature) := by
      rw [show (fun e : (VersionedTransaction × ExecutedTransactionMeta) × ℕ => e.1.1.signature) =
          (fun tx : VersionedTransaction => tx.signature) ∘ Prod.fst ∘ Prod.fst from rfl,
        ← List.map_map, ← List.map_map, List.zipIdx_map_fst, List.map_fst_zip hlen.ge]
    constructor
    · intro sig hsig
      exact hother sig ((forall_mem_entries hlen fun tx => tx.signature ≠ some sig).mpr hsig)
    · intro hnodup i tx txMeta hi sig hsig
      exact hfound (by rw [hsigs]; exact hnodup) ((tx, txMeta), i)
        (List.mem_zipIdx_iff_getElem?.mpr hi) sig hsig

theorem isNullifierSpent_commitBlock {P : Prims} {s s' : Store} {block : Block}
    {metas : List ExecutedTransactionMeta} {accountWrites : List (Pubkey × Option StoredAccount)}
    {stateUpdate : Smt.StateUpdate} {queue : BlockhashQueue} {nullifiers : List H256}
    (h : s.commitBlock P block metas accountWrites stateUpdate queue nullifiers = .ok s')
    (n : H256) :
    s'.isNullifierSpent n = true ↔ s.isNullifierSpent n = true ∨ n ∈ nullifiers := by
  rw [commitBlock_frame h]
  simp only [isNullifierSpent]
  clear h
  generalize s.nullifiers = table
  induction nullifiers generalizing table with
  | nil => simp
  | cons m nullifiers ih =>
    rw [List.foldl_cons, ih, List.mem_cons, PartialMap.insert_apply]
    split <;> simp_all

theorem commitBlock_ne_error {P : Prims} {s : Store} {block : Block}
    {metas : List ExecutedTransactionMeta} {accountWrites : List (Pubkey × Option StoredAccount)}
    {stateUpdate : Smt.StateUpdate} {queue : BlockhashQueue} {nullifiers : List H256}
    {e : StoreError} (hlen : metas.length = block.transactions.length)
    (hroot : block.header.stateRoot = stateUpdate.newRoot)
    (hslot : ∀ latest, s.latestSlot = some latest → latest < block.header.slot)
    (hsig : ∀ tx ∈ block.transactions, tx.signature.isSome) :
    s.commitBlock P block metas accountWrites stateUpdate queue nullifiers ≠ .error e := by
  have hindex : ∀ (entries : List ((VersionedTransaction × ExecutedTransactionMeta) × ℕ))
      (s : Store), (∀ e ∈ entries, e.1.1.signature.isSome) →
      ∃ s', entries.foldlM (indexTransaction block.header.slot) s = .ok s' := by
    intro entries
    induction entries with
    | nil => exact fun s _ => ⟨s, rfl⟩
    | cons e entries ih =>
      intro s hs
      obtain ⟨sig, hsig⟩ := Option.isSome_iff_exists.mp (hs e (by simp))
      obtain ⟨s', hs'⟩ := ih _ fun e' he' => hs e' (by simp [he'])
      exact ⟨s', by rw [List.foldlM_cons, indexTransaction, hsig]; exact hs'⟩
  have hany : s.latestSlot.any (block.header.slot ≤ ·) = false := by
    simpa [Option.any_eq_false] using hslot
  obtain ⟨indexed, hindexed⟩ := hindex _ { s with
      accounts := accountWrites.foldl writeAccount s.accounts
      smtNodes := writeSmtNodes P s.smtNodes stateUpdate
      blocks := s.blocks.insert block.header.slot block }
    ((forall_mem_entries hlen (fun tx => tx.signature.isSome)).mpr hsig)
  simp only [commitBlock, ne_eq, hlen, hroot, hany, hindexed, not_true_eq_false, if_false,
    Bool.false_eq_true, reduceCtorEq, not_false_eq_true]

end Store

end Zul
