import Zul.Lib.ByteOrder
import Zul.Lib.Lists
import Zul.Store.Index

/-! # The address index

A row of the address table has the address, the complemented slot and the complemented index for
its key, big endian, so that a scan of an address yields its newest entries first. A page starts
behind the last entry of the one before it; the pages of an address together are its history.
-/

namespace Zul.Store

open ByteOrder

/-! ## Keys -/

def keySuffix (slot : UInt64) (index : UInt32) : List UInt8 :=
  (LittleEndian.u64 (~~~slot)).reverse ++ (LittleEndian.u32 (~~~index)).reverse

theorem addrSigKey_eq (address : Pubkey) (slot : UInt64) (index : UInt32) :
    addrSigKey address slot index = address.toList ++ keySuffix slot index :=
  List.append_assoc _ _ _

@[simp] theorem length_keySuffix (slot : UInt64) (index : UInt32) :
    (keySuffix slot index).length = 12 := by
  simp [keySuffix]

theorem value_u64_reverse (x : UInt64) : value (LittleEndian.u64 x).reverse = x.toNat := by
  rw [value, List.reverse_reverse, LittleEndian.u64, LittleEndian.decode_encode_of_lt]
  exact x.toNat_lt

theorem value_u32_reverse (x : UInt32) : value (LittleEndian.u32 x).reverse = x.toNat := by
  rw [value, List.reverse_reverse, LittleEndian.u32, LittleEndian.decode_encode_of_lt]
  exact x.toNat_lt

theorem keySuffix_lt_iff {slot slot' : UInt64} {index index' : UInt32} :
    keySuffix slot index < keySuffix slot' index' ↔
      slot' < slot ∨ slot' = slot ∧ index' < index := by
  have hslot : (LittleEndian.u64 (~~~slot)).reverse < (LittleEndian.u64 (~~~slot')).reverse ↔
      slot' < slot := by
    have hlt := slot.toNat_lt
    have hlt' := slot'.toNat_lt
    rw [lt_iff_value_lt (by simp), value_u64_reverse, value_u64_reverse, UInt64.toNat_not,
      UInt64.toNat_not, UInt64.lt_iff_toNat_lt]
    have : UInt64.size = 2 ^ 64 := rfl
    omega
  have hindex : (LittleEndian.u32 (~~~index)).reverse < (LittleEndian.u32 (~~~index')).reverse ↔
      index' < index := by
    have hlt := index.toNat_lt
    have hlt' := index'.toNat_lt
    rw [lt_iff_value_lt (by simp), value_u32_reverse, value_u32_reverse, UInt32.toNat_not,
      UInt32.toNat_not, UInt32.lt_iff_toNat_lt]
    have : UInt32.size = 2 ^ 32 := rfl
    omega
  have hsame : (LittleEndian.u64 (~~~slot)).reverse = (LittleEndian.u64 (~~~slot')).reverse ↔
      slot' = slot := by
    rw [List.reverse_inj, LittleEndian.u64_injective.eq_iff, UInt64.not_inj, eq_comm]
  rw [keySuffix, keySuffix, append_lt_append_iff (by simp), hslot, hindex, hsame]

theorem addrSigKey_inj {address address' : Pubkey} {slot slot' : UInt64} {index index' : UInt32}
    (h : addrSigKey address slot index = addrSigKey address' slot' index') :
    address = address' ∧ slot = slot' ∧ index = index' := by
  rw [addrSigKey_eq, addrSigKey_eq] at h
  obtain ⟨haddress, h⟩ := List.append_inj h (by simp)
  obtain ⟨hslot, hindex⟩ := List.append_inj h (by simp)
  refine ⟨Bytes.ext haddress, ?_, ?_⟩
  · exact UInt64.not_inj.mp (LittleEndian.u64_injective (List.reverse_inj.mp hslot))
  · rw [List.reverse_inj] at hindex
    have hnot := congrArg LittleEndian.toU32 hindex
    rw [LittleEndian.toU32_u32, LittleEndian.toU32_u32] at hnot
    exact UInt32.not_inj.mp hnot

theorem mem_bounds_iff {address address' : Pubkey} {slot : UInt64} {index : UInt32}
    (hindex : index.toNat < 2 ^ 32 - 1) :
    address.toList ++ List.replicate 12 0 < addrSigKey address' slot index ∧
      addrSigKey address' slot index ≤ address.toList ++ List.replicate 12 0xff ↔
      address' = address := by
  have hzero : List.replicate 12 0 = keySuffix (UInt64.ofNat (2 ^ 64 - 1))
    (UInt32.ofNat (2 ^ 32 - 1)) := by decide
  have hones : List.replicate 12 0xff = keySuffix 0 0 := by decide
  have hfirst : keySuffix (UInt64.ofNat (2 ^ 64 - 1)) (UInt32.ofNat (2 ^ 32 - 1)) <
      keySuffix slot index := by
    have hslot := slot.toNat_lt
    rw [keySuffix_lt_iff, UInt64.lt_iff_toNat_lt, UInt32.lt_iff_toNat_lt, ← UInt64.toNat_inj]
    have hmax : (UInt64.ofNat (2 ^ 64 - 1)).toNat = 2 ^ 64 - 1 := by decide
    have hmax' : (UInt32.ofNat (2 ^ 32 - 1)).toNat = 2 ^ 32 - 1 := by decide
    rw [hmax, hmax']
    omega
  have hlast : ¬ keySuffix 0 0 < keySuffix slot index := by
    rw [keySuffix_lt_iff]
    rintro (h | ⟨-, h⟩)
    · exact UInt64.not_lt_zero h
    · exact UInt32.not_lt_zero h
  rw [hzero, hones, addrSigKey_eq, ← List.not_lt, append_lt_append_iff (by simp),
    append_lt_append_iff (by simp)]
  constructor
  · rintro ⟨hlow, hhigh⟩
    rcases hlow with hlow | ⟨hsame, -⟩
    · exact absurd (.inl hlow) hhigh
    · exact (Bytes.ext hsame).symm
  · rintro rfl
    refine ⟨.inr ⟨rfl, hfirst⟩, ?_⟩
    rintro (h | ⟨-, h⟩)
    · exact List.lt_irrefl _ h
    · exact hlast h

/-! ## The query -/

abbrev Entry := Signature × UInt64 × UInt32

def entryOf (row : List UInt8 × Signature) : Entry :=
  (row.2, ~~~LittleEndian.toU64 ((row.1.drop 32).take 8).reverse,
    ~~~LittleEndian.toU32 ((row.1.drop 40).take 4).reverse)

theorem entryOf_addrSigKey (address : Pubkey) (slot : UInt64) (index : UInt32) (sig : Signature) :
    entryOf (addrSigKey address slot index, sig) = (sig, slot, index) := by
  have hslot : ((addrSigKey address slot index).drop 32).take 8 =
      (LittleEndian.u64 (~~~slot)).reverse := by
    rw [addrSigKey_eq, List.drop_left' address.length_toList, keySuffix, List.take_left' (by simp)]
  have hindex : ((addrSigKey address slot index).drop 40).take 4 =
      (LittleEndian.u32 (~~~index)).reverse := by
    rw [addrSigKey, List.drop_left' (by simp), List.take_of_length_le (by simp)]
  rw [entryOf, hslot, hindex, List.reverse_reverse, List.reverse_reverse, LittleEndian.toU64_u64,
    LittleEndian.toU32_u32, UInt64.not_not, UInt32.not_not]

/-- The loop over the rows of a range: it ends once enough entries are collected. -/
def collect (limit : ℕ) : List Entry → List (List UInt8 × Signature) → List Entry
  | out, [] => out
  | out, row :: rows =>
    let out := out ++ [entryOf row]
    if limit ≤ out.length then out else collect limit out rows

def startKey (address : Pubkey) : Option (UInt64 × UInt32) → List UInt8
  | some (slot, index) => addrSigKey address slot index
  | none => address.toList ++ List.replicate 12 0

/-- Newest-first signatures touching an address, optionally strictly older than `before`. A row is
kept as the value it encodes, so its signature is never malformed. -/
def signaturesForAddress (scan : Scan Signature) (s : Store) (address : Pubkey)
    (before : Option (UInt64 × UInt32)) (limit : ℕ) : List Entry :=
  let last := address.toList ++ List.replicate 12 0xff
  collect limit [] (scan.rows s.addrSigs (startKey address before) last)

theorem collect_eq {limit : ℕ} {out : List Entry} (h : out.length < limit)
    (rows : List (List UInt8 × Signature)) :
    collect limit out rows = out ++ (rows.map entryOf).take (limit - out.length) := by
  induction rows generalizing out with
  | nil => simp [collect]
  | cons row rows ih =>
    obtain ⟨n, hn⟩ : ∃ n, limit - out.length = n + 1 := ⟨limit - out.length - 1, by omega⟩
    rw [collect, hn, List.map_cons, List.take_succ_cons, List.length_append,
      List.length_singleton]
    split
    · rename_i hfull
      have hzero : n = 0 := by omega
      rw [hzero, List.take_zero]
    · rename_i hroom
      rw [ih (by rw [List.length_append, List.length_singleton]; omega), List.length_append,
        List.length_singleton, List.append_assoc, List.singleton_append]
      congr 3
      omega

/-! ## The rows of the table -/

def Record.addressRows (r : Record) : List (List UInt8 × Signature) :=
  (r.block.transactions.zip r.metas).zipIdx.flatMap fun e =>
    match e.1.1.signature with
    | some sig => e.1.1.message.staticAccountKeys.map fun address =>
        (addrSigKey address r.slot (UInt32.ofNat e.2), sig)
    | none => []

/-- A transaction committed at the slot and index of an entry has its signature and lists the
address. -/
def Touches (records : List Record) (address : Pubkey) (e : Entry) : Prop :=
  ∃ r ∈ records, r.slot = e.2.1 ∧ ∃ tx, r.block.transactions[e.2.2.toNat]? = some tx ∧
    tx.signature = some e.1 ∧ address ∈ tx.message.staticAccountKeys

variable {P : Prims}

theorem foldl_insert_eq_insertAll (table : PartialMap (List UInt8) Signature)
    (addresses : List Pubkey) (slot : UInt64) (index : UInt32) (sig : Signature) :
    addresses.foldl (fun table address => table.insert (addrSigKey address slot index) sig) table =
      table.insertAll (addresses.map fun address => (addrSigKey address slot index, sig)) := by
  rw [PartialMap.insertAll, List.foldl_map]

theorem indexAll_addressRows {slot : UInt64}
    {entries : List ((VersionedTransaction × ExecutedTransactionMeta) × ℕ)} {s s' : Store}
    (h : entries.foldlM (indexTransaction slot) s = .ok s') :
    s'.addrSigs = s.addrSigs.insertAll (entries.flatMap fun e =>
      match e.1.1.signature with
      | some sig => e.1.1.message.staticAccountKeys.map fun address =>
          (addrSigKey address slot (UInt32.ofNat e.2), sig)
      | none => []) := by
  induction entries generalizing s with
  | nil =>
    cases h
    rfl
  | cons e entries ih =>
    rw [List.foldlM_cons] at h
    cases hsig : e.1.1.signature with
    | none =>
      rw [indexTransaction, hsig] at h
      cases h
    | some sig =>
      rw [indexTransaction, hsig] at h
      rw [ih h, List.flatMap_cons, hsig, PartialMap.insertAll_append]
      dsimp only
      rw [foldl_insert_eq_insertAll]

theorem commitBlock_addressRows {s s' : Store} {block : Block}
    {metas : List ExecutedTransactionMeta} {accountWrites : List (Pubkey × Option StoredAccount)}
    {stateUpdate : Smt.StateUpdate} {queue : BlockhashQueue} {nullifiers : List H256}
    (h : s.commitBlock P block metas accountWrites stateUpdate queue nullifiers = .ok s') :
    s'.addrSigs = s.addrSigs.insertAll (Record.mk block metas).addressRows := by
  unfold commitBlock at h
  split_ifs at h
  dsimp only at h
  split at h
  · cases h
  · rename_i indexed hindexed
    have hrows := indexAll_addressRows hindexed
    cases h
    exact hrows

theorem Filled.addrSigs_eq {s : Store} {records : List Record} (filled : Filled P s records) :
    s.addrSigs = PartialMap.insertAll (fun _ => none) (records.flatMap Record.addressRows) := by
  induction filled with
  | empty => rfl
  | genesis _ h ih =>
    obtain ⟨-, -, rfl⟩ | ⟨-, nodes, root, rfl⟩ := initializeGenesis_cases h
    · exact ih
    · exact ih
  | commit _ _ h ih =>
    unfold commitBlockOn at h
    split at h
    · rename_i txn hcommit
      cases h
      have hrows := commitBlock_addressRows hcommit
      rw [ih, ← PartialMap.insertAll_append] at hrows
      simpa [isOk] using hrows
    · cases h
      exact ih

section Rows

variable {records : List Record}

theorem Record.mem_addressRows_iff {r : Record}
    (hparallel : r.metas.length = r.block.transactions.length)
    (hsize : r.block.transactions.length < 2 ^ 32) {row : List UInt8 × Signature} :
    row ∈ r.addressRows ↔ ∃ address index, row.1 = addrSigKey address r.slot index ∧
      ∃ tx, r.block.transactions[index.toNat]? = some tx ∧ tx.signature = some row.2 ∧
        address ∈ tx.message.staticAccountKeys := by
  simp only [addressRows, List.mem_flatMap, Prod.exists, List.mem_zipIdx_iff_getElem?,
    List.getElem?_zip_eq_some]
  constructor
  · rintro ⟨tx, m, i, ⟨htx, -⟩, hrow⟩
    have hi : (UInt32.ofNat i).toNat = i :=
      UInt32.toNat_ofNat_of_lt' ((List.getElem?_eq_some_iff.mp htx).1.trans hsize)
    cases hsig : tx.signature with
    | none =>
      rw [hsig] at hrow
      cases hrow
    | some sig =>
      rw [hsig] at hrow
      obtain ⟨address, haddress, rfl⟩ := List.mem_map.mp hrow
      exact ⟨address, UInt32.ofNat i, rfl, tx, by rw [hi, htx], hsig, haddress⟩
  · rintro ⟨address, index, hkey, tx, htx, hsig, haddress⟩
    have hlt := (List.getElem?_eq_some_iff.mp htx).1
    obtain ⟨m, hm⟩ : ∃ m, r.metas[index.toNat]? = some m :=
      ⟨_, List.getElem?_eq_getElem (hparallel ▸ hlt)⟩
    refine ⟨tx, m, index.toNat, ⟨htx, hm⟩, ?_⟩
    rw [hsig]
    refine List.mem_map.mpr ⟨address, haddress, ?_⟩
    rw [UInt32.ofNat_toNat, ← hkey]

theorem Holds.mem_addressRows_iff {s : Store} (holds : Holds s records)
    {row : List UInt8 × Signature} :
    row ∈ records.flatMap Record.addressRows ↔ ∃ address slot index,
      row.1 = addrSigKey address slot index ∧ Touches records address (row.2, slot, index) := by
  rw [List.mem_flatMap]
  constructor
  · rintro ⟨r, hr, hrow⟩
    obtain ⟨address, index, hkey, htx⟩ :=
      (Record.mem_addressRows_iff (holds.parallel r hr) (holds.size r hr)).mp hrow
    exact ⟨address, r.slot, index, hkey, r, hr, rfl, htx⟩
  · rintro ⟨address, slot, index, hkey, r, hr, rfl, htx⟩
    exact ⟨r, hr, (Record.mem_addressRows_iff (holds.parallel r hr) (holds.size r hr)).mpr
      ⟨address, index, hkey, htx⟩⟩

theorem Holds.touches_unique {s : Store} (holds : Holds s records) {address address' : Pubkey}
    {sig sig' : Signature} {at_ : UInt64 × UInt32} (h : Touches records address (sig, at_))
    (h' : Touches records address' (sig', at_)) : sig = sig' := by
  obtain ⟨r, hr, hslot, tx, htx, hsig, -⟩ := h
  obtain ⟨r', hr', hslot', tx', htx', hsig', -⟩ := h'
  have hblock := holds.getBlock hr
  rw [hslot, ← hslot', holds.getBlock hr', Option.some.injEq] at hblock
  rw [hblock, htx, Option.some.injEq] at htx'
  rw [← htx', hsig] at hsig'
  exact Option.some.inj hsig'

theorem Filled.addrSigs_eq_some_iff {s : Store} (filled : Filled P s records)
    {row : List UInt8 × Signature} :
    s.addrSigs row.1 = some row.2 ↔ ∃ address slot index,
      row.1 = addrSigKey address slot index ∧ Touches records address (row.2, slot, index) := by
  have holds := filled.holds
  rw [filled.addrSigs_eq, PartialMap.insertAll_eq_some_iff_mem, holds.mem_addressRows_iff]
  rintro key sig sig' h h'
  obtain ⟨address, slot, index, hkey, htouches⟩ := holds.mem_addressRows_iff.mp h
  obtain ⟨address', slot', index', hkey', htouches'⟩ := holds.mem_addressRows_iff.mp h'
  obtain ⟨-, rfl, rfl⟩ := addrSigKey_inj (hkey.symm.trans hkey')
  exact holds.touches_unique htouches htouches'

theorem Filled.finite_addrSigs {s : Store} (filled : Filled P s records) :
    {k | (s.addrSigs k).isSome}.Finite := by
  apply ((records.flatMap Record.addressRows).map Prod.fst).finite_toSet.subset
  intro key hkey
  by_contra hnot
  rw [Set.mem_ofPred_eq, filled.addrSigs_eq,
    (PartialMap.insertAll_eq_none_iff _ key).mpr hnot] at hkey
  cases hkey

theorem Touches.index_lt {s : Store} (holds : Holds s records) {address : Pubkey} {e : Entry}
    (h : Touches records address e) : e.2.2.toNat < 2 ^ 32 - 1 := by
  obtain ⟨r, hr, -, tx, htx, -⟩ := h
  have hlt := (List.getElem?_eq_some_iff.mp htx).1
  have hsize := holds.size r hr
  omega

end Rows

/-! ## Pages -/

section Pages

variable {scan : Scan Signature} {s : Store} {records : List Record}

def addressScan (scan : Scan Signature) (s : Store) (address : Pubkey) :
    List (List UInt8 × Signature) :=
  scan.rows s.addrSigs (address.toList ++ List.replicate 12 0)
    (address.toList ++ List.replicate 12 0xff)

theorem mem_addressScan_iff (filled : Filled P s records) {address : Pubkey}
    {row : List UInt8 × Signature} :
    row ∈ addressScan scan s address ↔ ∃ slot index, row.1 = addrSigKey address slot index ∧
      Touches records address (row.2, slot, index) := by
  rw [addressScan, scan.mem_iff _ filled.finite_addrSigs, filled.addrSigs_eq_some_iff]
  constructor
  · rintro ⟨⟨address', slot, index, hkey, htouches⟩, hbounds⟩
    rw [hkey, mem_bounds_iff (htouches.index_lt filled.holds)] at hbounds
    subst hbounds
    exact ⟨slot, index, hkey, htouches⟩
  · rintro ⟨slot, index, hkey, htouches⟩
    refine ⟨⟨address, slot, index, hkey, htouches⟩, ?_⟩
    rw [hkey, mem_bounds_iff (htouches.index_lt filled.holds)]

theorem entryOf_of_mem (filled : Filled P s records) {address : Pubkey}
    {row : List UInt8 × Signature} (h : row ∈ addressScan scan s address) :
    addrSigKey address (entryOf row).2.1 (entryOf row).2.2 = row.1 ∧
      Touches records address (entryOf row) := by
  obtain ⟨key, sig⟩ := row
  obtain ⟨slot, index, rfl, htouches⟩ := (mem_addressScan_iff filled).mp h
  rw [entryOf_addrSigKey]
  exact ⟨rfl, htouches⟩

/-- Fetched page by page, each page from the last entry of the one before, the history of an
address is complete, without repetition and newest first, and every page but the last is full. -/
theorem address_history_paged (scan : Scan Signature) {s : Store} {records : List Record}
    (filled : Filled P s records) (address : Pubkey) {limit : ℕ} (hlimit : 1 ≤ limit) :
    ∃ pages enough, (∀ fuel, enough ≤ fuel → List.pages
        (fun before => s.signaturesForAddress scan address before limit) Prod.snd fuel none =
          pages) ∧
      (∀ e, e ∈ pages.flatten ↔ Touches records address e) ∧
      (pages.flatten.Pairwise fun e e' =>
        e'.2.1 < e.2.1 ∨ e'.2.1 = e.2.1 ∧ e'.2.2 < e.2.2) ∧
      ∀ page ∈ pages.dropLast, page.length = limit := by
  have hpage : ∀ before, s.signaturesForAddress scan address before limit =
      ((scan.rows s.addrSigs (startKey address before)
        (address.toList ++ List.replicate 12 0xff)).map entryOf).take limit := by
    intro before
    exact @collect_eq limit [] hlimit _
  have hflatten := List.flatten_chunks hlimit ((addressScan scan s address).map entryOf)
  refine ⟨((addressScan scan s address).map entryOf).chunks limit,
    (addressScan scan s address).length + 1, ?_, ?_, ?_, ?_⟩
  · intro fuel hfuel
    apply List.pages_eq_chunks hlimit
    · rw [hpage]
      rfl
    · -- the entry's key is the row's key, where the scan goes on
      intro before e after hsplit
      obtain ⟨rows, rest, hrows, rfl, hrest⟩ := List.map_eq_append_iff.mp hsplit
      obtain ⟨row, rest, rfl, rfl, rfl⟩ := List.map_eq_cons_iff.mp hrest
      have hmem : row ∈ addressScan scan s address := by
        rw [hrows]
        simp
      rw [hpage, startKey, (entryOf_of_mem filled hmem).1,
        scan.rows_of_split filled.finite_addrSigs hrows]
    · rw [List.length_map]
      omega
  · intro e
    rw [hflatten, List.mem_map]
    constructor
    · rintro ⟨row, hrow, rfl⟩
      exact (entryOf_of_mem filled hrow).2
    · intro htouches
      exact ⟨(addrSigKey address e.2.1 e.2.2, e.1), (mem_addressScan_iff filled).mpr
        ⟨e.2.1, e.2.2, rfl, htouches⟩, entryOf_addrSigKey ..⟩
  · rw [hflatten, List.pairwise_map]
    refine (scan.sorted s.addrSigs _ _).imp_of_mem fun {row row'} hrow hrow' hlt => ?_
    rw [← (entryOf_of_mem filled hrow).1, ← (entryOf_of_mem filled hrow').1, addrSigKey_eq,
      addrSigKey_eq, append_lt_append_iff rfl] at hlt
    rcases hlt with hlt | ⟨-, hlt⟩
    · exact absurd hlt (List.lt_irrefl _)
    · exact keySuffix_lt_iff.mp hlt
  · intro page hmem
    exact List.length_of_mem_dropLast_chunks hlimit hmem

end Pages

namespace Sample

def paidTx (signature : UInt8) : VersionedTransaction :=
  ⟨[Bytes.replicate 64 signature],
    ⟨⟨1, 0, 0⟩, [Bytes.replicate 32 5], Bytes.replicate 32 0, []⟩⟩

def paidBlock : Block :=
  ⟨⟨1, Bytes.replicate 32 0, Bytes.replicate 32 0, Bytes.replicate 32 0, 0, 2⟩,
    [paidTx 1, paidTx 2], Bytes.replicate 64 0⟩

end Sample

/-- Two entries of an address, one a page. -/
theorem address_history_of_two :
    ∃ s, Filled Sample.prims s [⟨Sample.paidBlock, [Sample.memo 1, Sample.memo 2]⟩] ∧
      ∃ pages enough, (∀ fuel, enough ≤ fuel → List.pages (fun before =>
          s.signaturesForAddress (Scan.ofSort Signature) (Bytes.replicate 32 5) before 1)
          Prod.snd fuel none = pages) ∧
        (Bytes.replicate 64 1, 1, 0) ∈ pages.flatten ∧
        (Bytes.replicate 64 2, 1, 1) ∈ pages.flatten := by
  obtain ⟨s, hcommit⟩ : ∃ s, Store.empty.commitBlockOn Sample.prims Sample.paidBlock
      [Sample.memo 1, Sample.memo 2] [] ⟨Bytes.replicate 32 0, fun _ => none⟩
      BlockhashQueue.new [] = (s, .ok ()) := ⟨_, rfl⟩
  have hfilled : Filled Sample.prims s [⟨Sample.paidBlock, [Sample.memo 1, Sample.memo 2]⟩] :=
    .commit .empty (by decide) hcommit
  obtain ⟨pages, enough, hpages, hmem, -, -⟩ := address_history_paged (Scan.ofSort Signature)
    hfilled (Bytes.replicate 32 5) (le_refl 1)
  refine ⟨s, hfilled, pages, enough, hpages, (hmem _).mpr ?_, (hmem _).mpr ?_⟩
  · exact ⟨_, List.mem_cons_self, rfl, Sample.paidTx 1, rfl, rfl, List.mem_cons_self⟩
  · exact ⟨_, List.mem_cons_self, rfl, Sample.paidTx 2, rfl, rfl, List.mem_cons_self⟩

end Zul.Store
