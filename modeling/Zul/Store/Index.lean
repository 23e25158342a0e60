import Zul.Store.StateRoot

/-! # The transaction index

A transaction is found through two tables keyed by its signature, a locator and a meta, and the
table of blocks the locator points into. A later transaction with the same signature overwrites
both rows, so each row is that of the last one committed.
-/

namespace Zul.Store

structure Record where
  block : Block
  metas : List ExecutedTransactionMeta

namespace Record

def slot (r : Record) : UInt64 := r.block.header.slot

def rows (r : Record) : List (Signature × TxLocator × ExecutedTransactionMeta) :=
  (r.block.transactions.zip r.metas).zipIdx.filterMap fun e =>
    e.1.1.signature.map fun sig => (sig, ⟨r.slot, UInt32.ofNat e.2⟩, e.1.2)

theorem mem_rows_iff {r : Record} {sig : Signature} {locator : TxLocator}
    {txMeta : ExecutedTransactionMeta} :
    (sig, locator, txMeta) ∈ r.rows ↔
      ∃ i tx, r.block.transactions[i]? = some tx ∧ r.metas[i]? = some txMeta ∧
        tx.signature = some sig ∧ locator = ⟨r.slot, UInt32.ofNat i⟩ := by
  simp only [rows, List.mem_filterMap, Prod.exists, List.mem_zipIdx_iff_getElem?,
    List.getElem?_zip_eq_some, Option.map_eq_some_iff, Prod.mk.injEq]
  constructor
  · rintro ⟨tx, m, i, ⟨htx, hm⟩, s, hsig, rfl, rfl, rfl⟩
    exact ⟨i, tx, htx, hm, hsig, rfl⟩
  · rintro ⟨i, tx, htx, hm, hsig, rfl⟩
    exact ⟨tx, txMeta, i, ⟨htx, hm⟩, sig, hsig, rfl, rfl, rfl⟩

theorem mem_keys_rows {r : Record} {sig : Signature} (h : sig ∈ r.rows.map Prod.fst) :
    ∃ tx ∈ r.block.transactions, tx.signature = some sig := by
  obtain ⟨⟨s, locator, txMeta⟩, hrow, rfl⟩ := List.mem_map.mp h
  obtain ⟨i, tx, htx, -, hsig, -⟩ := mem_rows_iff.mp hrow
  exact ⟨tx, List.mem_of_getElem? htx, hsig⟩

end Record

def rowsOf (records : List Record) : PartialMap Signature (TxLocator × ExecutedTransactionMeta) :=
  PartialMap.insertAll (fun _ => none) (records.flatMap Record.rows)

section Databases

variable (P : Prims)

/-- `commit_block` on a database: the write transaction works on a copy, and an uncommitted one
has no effect. -/
def commitBlockOn (s : Store) (block : Block) (metas : List ExecutedTransactionMeta)
    (accountWrites : List (Pubkey × Option StoredAccount)) (stateUpdate : Smt.StateUpdate)
    (queue : BlockhashQueue) (nullifiers : List H256) : Store × Except StoreError Unit :=
  match s.commitBlock P block metas accountWrites stateUpdate queue nullifiers with
  | .ok txn => (txn, .ok ())
  | .error e => (s, .error e)

/-- What a database that started empty can come to, with the blocks its commits accepted. -/
inductive Filled : Store → List Record → Prop
  | empty : Filled Store.empty []
  | genesis {s s' : Store} {records : List Record} {genesis : GenesisConfig}
      {extraAccounts : List (Pubkey × StoredAccount)} (filled : Filled s records)
      (h : s.initializeGenesis P genesis extraAccounts = .ok s') : Filled s' records
  | commit {s s' : Store} {records : List Record} {block : Block}
      {metas : List ExecutedTransactionMeta} {accountWrites : List (Pubkey × Option StoredAccount)}
      {stateUpdate : Smt.StateUpdate} {queue : BlockhashQueue} {nullifiers : List H256}
      {outcome : Except StoreError Unit} (filled : Filled s records)
      (size : block.transactions.length < 2 ^ 32)
      (h : s.commitBlockOn P block metas accountWrites stateUpdate queue nullifiers =
        (s', outcome)) :
      Filled s' (if isOk outcome then records ++ [⟨block, metas⟩] else records)

end Databases

variable {P : Prims}

/-! ## One commit -/

theorem indexAll_rows {slot : UInt64}
    {entries : List ((VersionedTransaction × ExecutedTransactionMeta) × ℕ)} {s s' : Store}
    (h : entries.foldlM (indexTransaction slot) s = .ok s') :
    let rows := entries.filterMap fun e => e.1.1.signature.map fun sig =>
      (sig, (⟨slot, UInt32.ofNat e.2⟩ : TxLocator), e.1.2)
    s'.txLoc = s.txLoc.insertAll (rows.map fun row => (row.1, row.2.1)) ∧
      s'.txMeta = s.txMeta.insertAll (rows.map fun row => (row.1, row.2.2)) := by
  induction entries generalizing s with
  | nil =>
    cases h
    exact ⟨rfl, rfl⟩
  | cons e entries ih =>
    rw [List.foldlM_cons] at h
    cases he : indexTransaction slot s e with
    | error err =>
      rw [he] at h
      cases h
    | ok s₁ =>
      rw [he] at h
      obtain ⟨sig, hsig, hs₁⟩ := indexTransaction_ok he
      obtain ⟨hloc, hmeta⟩ := ih h
      rw [hs₁] at hloc hmeta
      simp only [List.filterMap_cons, hsig, Option.map_some, List.map_cons]
      exact ⟨hloc, hmeta⟩

theorem commitBlock_rows {s s' : Store} {block : Block} {metas : List ExecutedTransactionMeta}
    {accountWrites : List (Pubkey × Option StoredAccount)} {stateUpdate : Smt.StateUpdate}
    {queue : BlockhashQueue} {nullifiers : List H256}
    (h : s.commitBlock P block metas accountWrites stateUpdate queue nullifiers = .ok s') :
    metas.length = block.transactions.length ∧
      s'.txLoc = s.txLoc.insertAll ((Record.mk block metas).rows.map fun row => (row.1, row.2.1)) ∧
      s'.txMeta =
        s.txMeta.insertAll ((Record.mk block metas).rows.map fun row => (row.1, row.2.2)) := by
  unfold commitBlock at h
  split_ifs at h with hlen
  dsimp only at h
  split at h
  · cases h
  · rename_i indexed hindexed
    obtain ⟨hloc, hmeta⟩ := indexAll_rows hindexed
    cases h
    exact ⟨not_not.mp hlen, hloc, hmeta⟩

/-! ## Databases in use -/

/-- The tables of a database that accepted some blocks, in order of their slots. -/
structure Holds (s : Store) (records : List Record) : Prop where
  increasing : (records.map Record.slot).Pairwise (· < ·)
  latestSlot : s.latestSlot = records.getLast?.map Record.slot
  blocks : s.blocks =
    PartialMap.insertAll (fun _ => none) (records.map fun r => (r.slot, r.block))
  txLoc : ∀ sig, s.txLoc sig = (rowsOf records sig).map Prod.fst
  txMeta : ∀ sig, s.txMeta sig = (rowsOf records sig).map Prod.snd
  parallel : ∀ r ∈ records, r.metas.length = r.block.transactions.length
  size : ∀ r ∈ records, r.block.transactions.length < 2 ^ 32

theorem holds_empty : Holds Store.empty [] :=
  ⟨List.Pairwise.nil, rfl, rfl, fun _ => rfl, fun _ => rfl, by simp, by simp⟩

theorem Holds.initializeGenesis {s s' : Store} {records : List Record} {genesis : GenesisConfig}
    {extraAccounts : List (Pubkey × StoredAccount)} (holds : Holds s records)
    (h : s.initializeGenesis P genesis extraAccounts = .ok s') : Holds s' records := by
  obtain ⟨-, -, rfl⟩ | ⟨-, nodes, root, rfl⟩ := Store.initializeGenesis_cases h
  · exact holds
  · obtain ⟨increasing, latestSlot, blocks, txLoc, txMeta, parallel, size⟩ := holds
    exact ⟨increasing, latestSlot, blocks, txLoc, txMeta, parallel, size⟩

theorem insertAll_rowsOf {V : Type*} {records : List Record} {table : PartialMap Signature V}
    {f : TxLocator × ExecutedTransactionMeta → V}
    (h : ∀ sig, table sig = (rowsOf records sig).map f) (r : Record) (sig : Signature) :
    table.insertAll (r.rows.map fun row => (row.1, f row.2)) sig =
      (rowsOf (records ++ [r]) sig).map f := by
  rw [PartialMap.insertAll_apply, PartialMap.insertAll_map, h sig, rowsOf, rowsOf,
    List.flatMap_append, List.flatMap_singleton, PartialMap.insertAll_append,
    PartialMap.insertAll_apply (PartialMap.insertAll _ _)]
  cases PartialMap.insertAll (fun _ => none) r.rows sig <;> rfl

theorem Holds.commitBlock {s s' : Store} {records : List Record} {block : Block}
    {metas : List ExecutedTransactionMeta} {accountWrites : List (Pubkey × Option StoredAccount)}
    {stateUpdate : Smt.StateUpdate} {queue : BlockhashQueue} {nullifiers : List H256}
    (holds : Holds s records) (size : block.transactions.length < 2 ^ 32)
    (h : s.commitBlock P block metas accountWrites stateUpdate queue nullifiers = .ok s') :
    Holds s' (records ++ [⟨block, metas⟩]) := by
  obtain ⟨hparallel, hloc, hmeta⟩ := commitBlock_rows h
  have hcommitted := commitBlock_spec h
  constructor
  · rw [List.map_append, List.pairwise_append]
    refine ⟨holds.increasing, List.pairwise_singleton _ _, ?_⟩
    intro slot hslot last hlast
    obtain rfl := List.mem_singleton.mp hlast
    -- the highest slot so far is that of the last record
    have hne : records ≠ [] := by
      rintro rfl
      cases hslot
    have hlatest := holds.latestSlot
    rw [List.getLast?_eq_some_getLast hne, Option.map_some] at hlatest
    have hlt := hcommitted.slot_gt _ hlatest
    obtain ⟨r, hr, rfl⟩ := List.mem_map.mp hslot
    rw [← List.dropLast_append_getLast hne] at hr
    rcases List.mem_append.mp hr with hr | hr
    · have hpairs := holds.increasing
      rw [← List.dropLast_append_getLast hne, List.map_append, List.pairwise_append] at hpairs
      have hbefore := hpairs.2.2 r.slot (List.mem_map_of_mem hr) (records.getLast hne).slot
        (by simp)
      exact UInt64.lt_trans hbefore hlt
    · rw [List.mem_singleton.mp hr]
      exact hlt
  · rw [hcommitted.latestSlot, List.getLast?_concat]
    rfl
  · rw [hcommitted.blocks, holds.blocks, List.map_append, PartialMap.insertAll_append]
    rfl
  · intro sig
    rw [hloc]
    exact insertAll_rowsOf (f := Prod.fst) holds.txLoc ⟨block, metas⟩ sig
  · intro sig
    rw [hmeta]
    exact insertAll_rowsOf (f := Prod.snd) holds.txMeta ⟨block, metas⟩ sig
  · intro r hr
    rcases List.mem_append.mp hr with hr | hr
    · exact holds.parallel r hr
    · obtain rfl := List.mem_singleton.mp hr
      exact hparallel
  · intro r hr
    rcases List.mem_append.mp hr with hr | hr
    · exact holds.size r hr
    · obtain rfl := List.mem_singleton.mp hr
      exact size

theorem Filled.holds {s : Store} {records : List Record} (filled : Filled P s records) :
    Holds s records := by
  induction filled with
  | empty => exact holds_empty
  | genesis _ h ih => exact ih.initializeGenesis h
  | @commit s s' records block metas accountWrites stateUpdate queue nullifiers outcome _
    size h ih =>
    unfold commitBlockOn at h
    split at h
    · rename_i txn hcommit
      cases h
      exact ih.commitBlock size hcommit
    · cases h
      exact ih

theorem Holds.getBlock {s : Store} {records : List Record} (holds : Holds s records) {r : Record}
    (hr : r ∈ records) : s.getBlock r.slot = some r.block := by
  rw [Store.getBlock, holds.blocks, PartialMap.insertAll_eq_some_iff]
  obtain ⟨before, after, rfl⟩ := List.append_of_mem hr
  refine ⟨before.map fun r => (r.slot, r.block), after.map fun r => (r.slot, r.block), by simp, ?_⟩
  intro hmem
  rw [List.map_map] at hmem
  obtain ⟨r', hr', hslot⟩ := List.mem_map.mp hmem
  have hpairs := holds.increasing
  rw [List.map_append, List.pairwise_append, List.map_cons, List.pairwise_cons] at hpairs
  have hlt := hpairs.2.1.1 r'.slot (List.mem_map_of_mem hr')
  exact UInt64.lt_irrefl _ (hslot ▸ hlt)

theorem Holds.getTransaction_of_row {s : Store} {records : List Record} (holds : Holds s records)
    {r : Record} (hr : r ∈ records) {i : ℕ} {tx : VersionedTransaction}
    (htx : r.block.transactions[i]? = some tx) {sig : Signature} {txMeta : ExecutedTransactionMeta}
    (hrow : rowsOf records sig = some (⟨r.slot, UInt32.ofNat i⟩, txMeta)) :
    s.getTransaction sig = .ok (some (⟨r.slot, UInt32.ofNat i⟩, tx, txMeta)) := by
  have hlt : i < 2 ^ 32 := (List.getElem?_eq_some_iff.mp htx).1.trans (holds.size r hr)
  have hblock := holds.getBlock hr
  unfold Store.getBlock at hblock
  unfold getTransaction
  simp only [holds.txLoc, holds.txMeta, hrow, Option.map_some, hblock,
    UInt32.toNat_ofNat_of_lt' hlt, htx]

theorem Holds.getTransaction_of_none {s : Store} {records : List Record} (holds : Holds s records)
    {sig : Signature} (hrow : rowsOf records sig = none) : s.getTransaction sig = .ok none := by
  rw [getTransaction_eq_none_iff, holds.txLoc, hrow]
  rfl

theorem mem_of_rowsOf {records : List Record} {sig : Signature} {locator : TxLocator}
    {txMeta : ExecutedTransactionMeta} (h : rowsOf records sig = some (locator, txMeta)) :
    ∃ r ∈ records, ∃ i tx, r.block.transactions[i]? = some tx ∧ r.metas[i]? = some txMeta ∧
      tx.signature = some sig ∧ locator = ⟨r.slot, UInt32.ofNat i⟩ := by
  obtain ⟨before, after, hsplit, -⟩ := (PartialMap.insertAll_eq_some_iff ..).mp h
  have hmem : (sig, locator, txMeta) ∈ records.flatMap Record.rows := by
    rw [hsplit]
    simp
  obtain ⟨r, hr, hrow⟩ := List.mem_flatMap.mp hmem
  exact ⟨r, hr, Record.mem_rows_iff.mp hrow⟩

theorem rowsOf_of_last {before after : List Record} {r : Record} {i : ℕ}
    {tx : VersionedTransaction} {sig : Signature} {txMeta : ExecutedTransactionMeta}
    (htx : r.block.transactions[i]? = some tx) (hmeta : r.metas[i]? = some txMeta)
    (hsig : tx.signature = some sig)
    (hblock : ∀ j tx', i < j → r.block.transactions[j]? = some tx' → tx'.signature ≠ some sig)
    (hafter : ∀ r' ∈ after, ∀ tx' ∈ r'.block.transactions, tx'.signature ≠ some sig) :
    rowsOf (before ++ r :: after) sig = some (⟨r.slot, UInt32.ofNat i⟩, txMeta) := by
  have hentry : (r.block.transactions.zip r.metas)[i]? = some (tx, txMeta) :=
    List.getElem?_zip_eq_some.mpr ⟨htx, hmeta⟩
  obtain ⟨hi, hget⟩ := List.getElem?_eq_some_iff.mp hentry
  let row (e : (VersionedTransaction × ExecutedTransactionMeta) × ℕ) :=
    e.1.1.signature.map fun sig => (sig, (⟨r.slot, UInt32.ofNat e.2⟩ : TxLocator), e.1.2)
  let entries := (r.block.transactions.zip r.metas).zipIdx
  have hrows : r.rows = (entries.take i).filterMap row ++
      (sig, ⟨r.slot, UInt32.ofNat i⟩, txMeta) :: (entries.drop (i + 1)).filterMap row := by
    have hlt : i < entries.length := by simpa [entries] using hi
    have hentries : entries = entries.take i ++ entries[i] :: entries.drop (i + 1) := by simp
    have hat : row entries[i] = some (sig, ⟨r.slot, UInt32.ofNat i⟩, txMeta) := by
      simp only [row, entries, List.getElem_zipIdx, hget, hsig, Option.map_some, Nat.zero_add]
    show entries.filterMap row = _
    conv_lhs => rw [hentries]
    rw [List.filterMap_append, List.filterMap_cons_some hat]
  refine (PartialMap.insertAll_eq_some_iff ..).mpr ⟨before.flatMap Record.rows ++
    (entries.take i).filterMap row, (entries.drop (i + 1)).filterMap row ++
      after.flatMap Record.rows, ?_, ?_⟩
  · rw [List.flatMap_append, List.flatMap_cons, hrows]
    simp
  · rw [List.map_append, List.mem_append]
    rintro (hlater | hlater)
    · obtain ⟨⟨s, locator, m⟩, hmem, rfl⟩ := List.mem_map.mp hlater
      obtain ⟨⟨⟨tx', m'⟩, j⟩, hentry', hrow⟩ := List.mem_filterMap.mp hmem
      obtain ⟨k, hk⟩ := List.getElem?_of_mem hentry'
      rw [List.getElem?_drop, List.getElem?_zipIdx, Option.map_eq_some_iff] at hk
      obtain ⟨p, hp, hpair⟩ := hk
      cases hpair
      obtain ⟨sig', hsig', hpair⟩ := Option.map_eq_some_iff.mp hrow
      cases hpair
      exact hblock _ tx' (by omega) (List.getElem?_zip_eq_some.mp hp).1 hsig'
    · obtain ⟨⟨s, locator, m⟩, hmem, rfl⟩ := List.mem_map.mp hlater
      obtain ⟨r', hr', hrow⟩ := List.mem_flatMap.mp hmem
      obtain ⟨tx', htx', hsig'⟩ := Record.mem_keys_rows (List.mem_map_of_mem hrow)
      exact hafter r' hr' tx' htx' hsig'

/-- The index is sound and complete: its invariant errors do not occur, what it returns was
committed under the signature, every transaction not overwritten later is returned, and a failed
commit changes nothing. -/
theorem index_integrity {s : Store} {records : List Record} (filled : Filled P s records) :
    (∀ sig e, s.getTransaction sig ≠ .error e) ∧
    (∀ sig locator tx txMeta, s.getTransaction sig = .ok (some (locator, tx, txMeta)) →
      ∃ r ∈ records, s.getBlock locator.slot = some r.block ∧ r.slot = locator.slot ∧
        r.block.transactions[locator.index.toNat]? = some tx ∧ tx.signature = some sig ∧
        r.metas[locator.index.toNat]? = some txMeta) ∧
    (∀ before r after, records = before ++ r :: after → ∀ i tx sig,
      r.block.transactions[i]? = some tx → tx.signature = some sig →
      (∀ j tx', i < j → r.block.transactions[j]? = some tx' → tx'.signature ≠ some sig) →
      (∀ r' ∈ after, ∀ tx' ∈ r'.block.transactions, tx'.signature ≠ some sig) →
      ∃ txMeta, r.metas[i]? = some txMeta ∧
        s.getTransaction sig = .ok (some (⟨r.slot, UInt32.ofNat i⟩, tx, txMeta))) ∧
    (∀ block metas accountWrites stateUpdate queue nullifiers s' e,
      s.commitBlockOn P block metas accountWrites stateUpdate queue nullifiers =
        (s', .error e) → s' = s) := by
  have holds := filled.holds
  refine ⟨?_, ?_, ?_, ?_⟩
  · intro sig e herror
    cases hrow : rowsOf records sig with
    | none =>
      rw [holds.getTransaction_of_none hrow] at herror
      cases herror
    | some row =>
      obtain ⟨locator, txMeta⟩ := row
      obtain ⟨r, hr, i, tx, htx, -, -, rfl⟩ := mem_of_rowsOf hrow
      rw [holds.getTransaction_of_row hr htx hrow] at herror
      cases herror
  · intro sig locator tx txMeta hfound
    cases hrow : rowsOf records sig with
    | none =>
      rw [holds.getTransaction_of_none hrow] at hfound
      cases hfound
    | some row =>
      obtain ⟨locator', txMeta'⟩ := row
      obtain ⟨r, hr, i, tx', htx, hmeta, hsig, rfl⟩ := mem_of_rowsOf hrow
      rw [holds.getTransaction_of_row hr htx hrow] at hfound
      cases hfound
      have hlt : i < 2 ^ 32 := (List.getElem?_eq_some_iff.mp htx).1.trans (holds.size r hr)
      rw [UInt32.toNat_ofNat_of_lt' hlt]
      exact ⟨r, hr, holds.getBlock hr, rfl, htx, hsig, hmeta⟩
  · rintro before r after rfl i tx sig htx hsig hblock hafter
    have hr : r ∈ before ++ r :: after := by simp
    have hi : i < r.metas.length := by
      rw [holds.parallel r hr]
      exact (List.getElem?_eq_some_iff.mp htx).1
    have hmeta : r.metas[i]? = some r.metas[i] := List.getElem?_eq_getElem hi
    exact ⟨_, hmeta, holds.getTransaction_of_row hr htx
      (rowsOf_of_last htx hmeta hsig hblock hafter)⟩
  · intro block metas accountWrites stateUpdate queue nullifiers s' e h
    unfold commitBlockOn at h
    split at h
    · cases h
    · cases h
      rfl

namespace Sample

def memo (fee : UInt64) : ExecutedTransactionMeta := ⟨.ok (), fee, 0, [], [], []⟩

def signedTx : VersionedTransaction :=
  ⟨[Bytes.replicate 64 1], ⟨⟨1, 0, 0⟩, [], Bytes.replicate 32 0, []⟩⟩

def twice : Block :=
  ⟨⟨1, Bytes.replicate 32 0, Bytes.replicate 32 0, Bytes.replicate 32 0, 0, 2⟩,
    [signedTx, signedTx], Bytes.replicate 64 0⟩

end Sample

/-- Of a transaction committed twice the second is found; a block on the same slot is refused. -/
theorem index_integrity_twice :
    ∃ s, Filled Sample.prims s [⟨Sample.twice, [Sample.memo 1, Sample.memo 2]⟩] ∧
      s.getTransaction (Bytes.replicate 64 1) =
        .ok (some (⟨1, 1⟩, Sample.signedTx, Sample.memo 2)) := by
  let update : Smt.StateUpdate := ⟨Bytes.replicate 32 0, fun _ => none⟩
  obtain ⟨s, hcommit⟩ : ∃ s, Store.empty.commitBlockOn Sample.prims Sample.twice
      [Sample.memo 1, Sample.memo 2] [] update BlockhashQueue.new [] = (s, .ok ()) := ⟨_, rfl⟩
  have hlatest : s.latestSlot = some 1 := by
    cases hcommit
    rfl
  obtain ⟨e, hrefused⟩ : ∃ e, s.commitBlockOn Sample.prims Sample.twice
      [Sample.memo 1, Sample.memo 2] [] update BlockhashQueue.new [] = (s, .error e) := by
    cases h : s.commitBlock Sample.prims Sample.twice [Sample.memo 1, Sample.memo 2] [] update
      BlockhashQueue.new [] with
    | ok s' => exact absurd ((commitBlock_spec h).slot_gt 1 hlatest) (by decide)
    | error e => exact ⟨e, by rw [commitBlockOn, h]⟩
  have hfilled : Filled Sample.prims s [⟨Sample.twice, [Sample.memo 1, Sample.memo 2]⟩] :=
    .commit (.commit .empty (by decide) hcommit) (by decide) hrefused
  obtain ⟨-, -, hreturned, -⟩ := index_integrity hfilled
  have hlast : ∀ j tx', 1 < j → Sample.twice.transactions[j]? = some tx' →
      tx'.signature ≠ some (Bytes.replicate 64 1) := by
    intro j tx' hj htx'
    have hlen : Sample.twice.transactions.length ≤ j := hj
    rw [List.getElem?_eq_none hlen] at htx'
    cases htx'
  obtain ⟨txMeta, hmeta, hfound⟩ := hreturned [] _ [] rfl 1 Sample.signedTx (Bytes.replicate 64 1)
    rfl rfl hlast (by simp)
  cases hmeta
  exact ⟨s, hfilled, hfound⟩

end Zul.Store
