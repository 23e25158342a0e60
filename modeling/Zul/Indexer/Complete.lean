import Zul.Indexer.Tick

/-! # The index is complete up to its cursor

The cursor only moves once every call for the slots below it went through, but a row of the
address index that is refused is passed over. If such rows are only ever refused as duplicates,
everything up to the cursor is in the database at every moment of every run, once each. If no
signature is at two places of the chain, indexing a slot again changes nothing.
-/

namespace Zul.Indexer

variable {D : Deps} {o : Oracle}

/-! ## What the writes of a slot keep -/

/-- A property of databases that every write made for a slot keeps. -/
structure Keeps (D : Deps) (slot : ℕ) (Φ : Database → Prop) : Prop where
  block : ∀ block, D.chain.blocks slot = some block →
    ∀ db, Φ db → Φ (db.upsertBlock slot block)
  transaction : ∀ block, D.chain.blocks slot = some block →
    ∀ index signature, block.signatures[index]? = some signature →
    ∀ tx txMeta, D.chain.served signature = some (tx, txMeta) →
    ∀ db, Φ db → Φ (db.upsertTransaction D slot index signature tx txMeta)
  address : ∀ block, D.chain.blocks slot = some block → ∀ signature ∈ block.signatures,
    ∀ tx txMeta, D.chain.served signature = some (tx, txMeta) →
    ∀ address ∈ accountKeys D tx txMeta,
    ∀ db, Φ db → Φ (db.createAddressSignature address signature slot)

def Through (Φ : Database → Prop) (w w' : World) : Prop :=
  Φ w'.db ∧ ∀ db ∈ w'.past, db ∈ w.past ∨ Φ db

section Through

variable {Φ : Database → Prop} {w w' w'' : World}

theorem Through.refl (h : Φ w.db) : Through Φ w w := ⟨h, fun _ => Or.inl⟩

theorem Through.trans (h : Through Φ w w') (h' : Through Φ w' w'') : Through Φ w w'' := by
  refine ⟨h'.1, fun db hdb => ?_⟩
  rcases h'.2 db hdb with hpast | hΦ
  · exact h.2 db hpast
  · exact Or.inr hΦ

theorem through_rpc (h : Φ w.db) (call : Call) : Through Φ w (o.rpc call w).1 :=
  ⟨h, fun _ => Or.inl⟩

theorem through_write {f : Database → Database} (h : Φ w.db) (hf : Φ (f w.db)) (call : Call) :
    Through Φ w (o.write call f w).1 := by
  have hpast : ∀ db ∈ w.db :: w.past, db ∈ w.past ∨ Φ db := by
    intro db hdb
    rcases List.mem_cons.mp hdb with rfl | hdb
    · exact Or.inr h
    · exact Or.inl hdb
  unfold Oracle.write
  split
  · exact ⟨hf, hpast⟩
  · exact ⟨h, hpast⟩
  · exact ⟨hf, hpast⟩

theorem through_createAddresses {signature : String} {slot : ℕ} {addresses : List String}
    (hf : ∀ address ∈ addresses, ∀ db, Φ db → Φ (db.createAddressSignature address signature slot))
    (h : Φ w.db) : Through Φ w (createAddresses o signature slot addresses w) := by
  induction addresses generalizing w with
  | nil => exact .refl h
  | cons address addresses ih =>
    have hwrite := through_write (o := o) h (hf address List.mem_cons_self _ h)
      (.createAddressSignature address signature)
    exact hwrite.trans (ih (fun a ha => hf a (List.mem_cons_of_mem _ ha)) hwrite.1)

variable {slot : ℕ} {block : RpcBlock}

theorem through_indexTransaction (hΦ : Keeps D slot Φ) (hblock : D.chain.blocks slot = some block)
    {index : ℕ} {signature : String} (hsignature : block.signatures[index]? = some signature)
    (h : Φ w.db) : Through Φ w (indexTransaction D o slot index signature w).1 := by
  have hrpc := through_rpc (o := o) h (.getTransaction signature)
  unfold indexTransaction
  split
  · rename_i w' hcall
    rwa [hcall] at hrpc
  · rename_i w' hcall
    rw [hcall] at hrpc
    split
    · exact hrpc
    · rename_i tx txMeta hserved
      have hwrite := hrpc.trans (through_write (o := o) hrpc.1
        (hΦ.transaction block hblock index signature hsignature tx txMeta hserved _ hrpc.1)
        (.upsertTransaction signature))
      split
      · rename_i w'' hcall
        rwa [hcall] at hwrite
      · rename_i w'' hcall
        rw [hcall] at hwrite
        exact hwrite.trans (through_createAddresses (hΦ.address block hblock signature
          (List.mem_of_getElem? hsignature) tx txMeta hserved) hwrite.1)

theorem through_indexTransactions (hΦ : Keeps D slot Φ)
    (hblock : D.chain.blocks slot = some block) {index : ℕ} {signatures : List String}
    (hsignatures : block.signatures.drop index = signatures) (h : Φ w.db) :
    Through Φ w (indexTransactions D o slot index signatures w).1 := by
  induction signatures generalizing index w with
  | nil => exact .refl h
  | cons signature signatures ih =>
    have hsignature : block.signatures[index]? = some signature := by
      rw [← List.head?_drop, hsignatures, List.head?_cons]
    have hrest : block.signatures.drop (index + 1) = signatures := by
      rw [← List.tail_drop, hsignatures, List.tail_cons]
    have hfirst := through_indexTransaction (o := o) hΦ hblock hsignature h
    unfold indexTransactions
    split
    · rename_i w' hcall
      rwa [hcall] at hfirst
    · rename_i w' hcall
      rw [hcall] at hfirst
      exact hfirst.trans (ih hrest hfirst.1)

theorem through_indexSlot (hΦ : Keeps D slot Φ) (h : Φ w.db) :
    Through Φ w (indexSlot D o slot w).1 := by
  have hrpc := through_rpc (o := o) h (.getBlock slot)
  unfold indexSlot
  split
  · rename_i w' hcall
    rwa [hcall] at hrpc
  · rename_i w' hcall
    rw [hcall] at hrpc
    split
    · exact hrpc
    · rename_i block hblock
      have hwrite := hrpc.trans
        (through_write (o := o) hrpc.1 (hΦ.block block hblock _ hrpc.1) (.upsertBlock slot))
      split
      · rename_i w'' hcall
        rwa [hcall] at hwrite
      · rename_i w'' hcall
        rw [hcall] at hwrite
        exact hwrite.trans (through_indexTransactions hΦ hblock List.drop_zero hwrite.1)

theorem through_indexSlots (hΦ : ∀ slot, Keeps D slot Φ) (first count : ℕ) (h : Φ w.db) :
    Through Φ w (indexSlots D o first count w).1 := by
  induction count generalizing first w with
  | zero => exact .refl h
  | succ count ih =>
    have hfirst := through_indexSlot (o := o) (hΦ first) h
    unfold indexSlots
    split
    · rename_i w' hcall
      rwa [hcall] at hfirst
    · rename_i w' hcall
      rw [hcall] at hfirst
      exact hfirst.trans (ih (first + 1) hfirst.1)

end Through

/-! ## Rows are never lost -/

structure Grows (db db' : Database) : Prop where
  blocks : ∀ slot, db.blocks.Has slot → db'.blocks.Has slot
  transactions : ∀ signature, db.transactions.Has signature → db'.transactions.Has signature
  addressSignatures : ∀ pair, db.addressSignatures.Has pair → db'.addressSignatures.Has pair
  syncState : db'.syncState = db.syncState

theorem Grows.refl (db : Database) : Grows db db :=
  ⟨fun _ => id, fun _ => id, fun _ => id, rfl⟩

theorem keeps_grows (start : Database) (slot : ℕ) : Keeps D slot (Grows start) where
  block _ _ _ h := { h with blocks := fun k hk => Table.has_upsert.mpr (Or.inl (h.blocks k hk)) }
  transaction _ _ _ _ _ _ _ _ _ h :=
    { h with transactions := fun k hk => Table.has_upsert.mpr (Or.inl (h.transactions k hk)) }
  address _ _ _ _ _ _ _ _ _ _ h :=
    { h with
      addressSignatures := fun k hk => Table.has_upsert.mpr (Or.inl (h.addressSignatures k hk)) }

/-- A transaction that is served is in the database once, and so is each of its pairs. -/
def TransactionIndexed (D : Deps) (db : Database) (signature : String) : Prop :=
  ∀ tx txMeta, D.chain.served signature = some (tx, txMeta) →
    db.transactions.count signature = 1 ∧
    ∀ address ∈ accountKeys D tx txMeta, db.addressSignatures.count (address, signature) = 1

/-- A slot's block is in the database once, with its transactions. -/
def Indexed (D : Deps) (db : Database) (slot : ℕ) : Prop :=
  ∀ block, D.chain.blocks slot = some block → db.blocks.count slot = 1 ∧
    ∀ signature ∈ block.signatures, TransactionIndexed D db signature

def Complete (D : Deps) (db : Database) : Prop :=
  ∀ state, db.syncState = some state → ∀ slot ≤ state.lastSlot, Indexed D db slot

theorem Grows.transactionIndexed {db db' : Database} (h : Grows db db') {signature : String}
    (hindexed : TransactionIndexed D db signature) : TransactionIndexed D db' signature := by
  intro tx txMeta hserved
  obtain ⟨htx, hpairs⟩ := hindexed tx txMeta hserved
  constructor
  · exact Table.count_eq_one_iff.mpr (h.transactions _ (Table.count_eq_one_iff.mp htx))
  · intro address haddress
    exact Table.count_eq_one_iff.mpr
      (h.addressSignatures _ (Table.count_eq_one_iff.mp (hpairs address haddress)))

theorem Grows.indexed {db db' : Database} (h : Grows db db') {slot : ℕ}
    (hindexed : Indexed D db slot) : Indexed D db' slot := by
  intro block hblock
  obtain ⟨hrow, hsignatures⟩ := hindexed block hblock
  exact ⟨Table.count_eq_one_iff.mpr (h.blocks _ (Table.count_eq_one_iff.mp hrow)),
    fun signature hsignature => h.transactionIndexed (hsignatures signature hsignature)⟩

theorem Grows.complete {db db' : Database} (h : Grows db db') (hcomplete : Complete D db) :
    Complete D db' := by
  intro state hstate slot hslot
  exact h.indexed (hcomplete state (h.syncState ▸ hstate) slot hslot)

/-! ## What went through is there -/

/-- No row of the address index is refused, unless as a second one. -/
def Oracle.CreatesRows (o : Oracle) : Prop :=
  ∀ n address signature, o.outcome n (.createAddressSignature address signature) ≠ .refused

section Done

variable {w w' : World}

theorem db_write_of_true {call : Call} {f : Database → Database}
    (h : o.write call f w = (w', true)) : w'.db = f w.db := by
  unfold Oracle.write at h
  split at h <;> cases h
  rfl

theorem db_write_of_ne_refused {call : Call} {f : Database → Database}
    (h : o.outcome w.calls call ≠ .refused) : (o.write call f w).1.db = f w.db := by
  unfold Oracle.write
  split
  · rfl
  · rename_i hrefused
    exact absurd hrefused h
  · rfl

theorem createAddresses_has (ho : o.CreatesRows) {signature : String} {slot : ℕ}
    {addresses : List String} : ∀ address ∈ addresses,
      (createAddresses o signature slot addresses w).db.addressSignatures.Has
        (address, signature) := by
  induction addresses generalizing w with
  | nil => exact fun _ h => nomatch h
  | cons first addresses ih =>
    intro address haddress
    rcases List.mem_cons.mp haddress with rfl | hrest
    · -- the row is made now and kept by the rest of the loop
      set w₁ := (o.write (.createAddressSignature address signature)
        (Database.createAddressSignature address signature slot) w).1 with hw₁
      have hrow : w₁.db.addressSignatures.Has (address, signature) := by
        rw [hw₁, db_write_of_ne_refused (ho _ _ _)]
        exact Table.has_upsert.mpr (Or.inr rfl)
      exact (through_createAddresses
        (Φ := fun db => db.addressSignatures.Has (address, signature))
        (fun _ _ _ h => Table.has_upsert.mpr (Or.inl h)) hrow).1
    · exact ih address hrest

theorem indexTransaction_done (ho : o.CreatesRows) {slot index : ℕ} {signature : String}
    (h : indexTransaction D o slot index signature w = (w', true)) :
    TransactionIndexed D w'.db signature := by
  intro tx txMeta hserved
  unfold indexTransaction at h
  split at h
  · cases h
  · rw [hserved] at h
    dsimp only at h
    split at h
    · cases h
    · rename_i w₁ w₂ hwrite
      obtain rfl : createAddresses o signature slot (accountKeys D tx txMeta) w₂ = w' :=
        congrArg Prod.fst h
      have hrow : w₂.db.transactions.Has signature := by
        rw [db_write_of_true hwrite]
        exact Table.has_upsert.mpr (Or.inr rfl)
      constructor
      · exact Table.count_eq_one_iff.mpr (through_createAddresses
          (Φ := fun db => db.transactions.Has signature) (fun _ _ _ h => h) hrow).1
      · intro address haddress
        exact Table.count_eq_one_iff.mpr (createAddresses_has ho address haddress)

theorem indexTransactions_done (ho : o.CreatesRows) {slot : ℕ} {block : RpcBlock}
    (hblock : D.chain.blocks slot = some block) {index : ℕ} {signatures : List String}
    (hsignatures : block.signatures.drop index = signatures)
    (h : indexTransactions D o slot index signatures w = (w', true)) :
    ∀ signature ∈ signatures, TransactionIndexed D w'.db signature := by
  induction signatures generalizing index w with
  | nil => exact fun _ h => nomatch h
  | cons first signatures ih =>
    have hrest : block.signatures.drop (index + 1) = signatures := by
      rw [← List.tail_drop, hsignatures, List.tail_cons]
    unfold indexTransactions at h
    split at h
    · cases h
    · rename_i w₁ hfirst
      intro signature hsignature
      rcases List.mem_cons.mp hsignature with rfl | hsignature
      · have hgrows := (through_indexTransactions (o := o) (keeps_grows w₁.db slot) hblock hrest
          (Grows.refl w₁.db)).1
        rw [h] at hgrows
        exact hgrows.transactionIndexed (indexTransaction_done ho hfirst)
      · exact ih hrest h signature hsignature

theorem indexSlot_done (ho : o.CreatesRows) {slot : ℕ} (h : indexSlot D o slot w = (w', true)) :
    Indexed D w'.db slot := by
  intro block hblock
  unfold indexSlot at h
  split at h
  · cases h
  · rw [hblock] at h
    dsimp only at h
    split at h
    · cases h
    · rename_i w₁ w₂ hwrite
      constructor
      · have hrow : w₂.db.blocks.Has slot := by
          rw [db_write_of_true hwrite]
          exact Table.has_upsert.mpr (Or.inr rfl)
        have hgrows := (through_indexTransactions (o := o) (keeps_grows w₂.db slot) hblock
          List.drop_zero (Grows.refl w₂.db)).1
        rw [h] at hgrows
        exact Table.count_eq_one_iff.mpr (hgrows.blocks slot hrow)
      · exact indexTransactions_done ho hblock List.drop_zero h

theorem indexSlots_done (ho : o.CreatesRows) {first count : ℕ}
    (h : indexSlots D o first count w = (w', true)) :
    ∀ slot, first ≤ slot → slot < first + count → Indexed D w'.db slot := by
  induction count generalizing first w with
  | zero => intro slot hge hlt; omega
  | succ count ih =>
    unfold indexSlots at h
    split at h
    · cases h
    · rename_i w₁ hfirst
      intro slot hge hlt
      rcases Nat.eq_or_lt_of_le hge with rfl | hgt
      · have hgrows : Grows w₁.db (indexSlots D o (first + 1) count w₁).1.db :=
          (through_indexSlots (keeps_grows w₁.db) _ _ (Grows.refl w₁.db)).1
        rw [h] at hgrows
        exact hgrows.indexed (indexSlot_done ho hfirst)
      · exact ih h slot hgt (by omega)

end Done

/-! ## Every moment of every run -/

section Ticks

variable {Φ : Database → Prop} {w w' : World}

theorem through_ensureSyncState (hΦ : ∀ genesisHash db, Φ db → Φ (db.upsertSyncState genesisHash))
    (h : Φ w.db) : Through Φ w (ensureSyncState D o w).1 := by
  have hrpc := through_rpc (o := o) h .getGenesisHash
  unfold ensureSyncState
  split
  rename_i w₁ answered hcall
  rw [hcall] at hrpc
  have hwrite := hrpc.trans (through_write (o := o) hrpc.1
    (hΦ (if answered then D.chain.genesisHash else "") w₁.db hrpc.1) .upsertSyncState)
  split
  · rename_i w₂ hcall'
    rwa [hcall'] at hwrite
  · rename_i w₂ hcall'
    rwa [hcall'] at hwrite

theorem lastSlot_of_ensureSyncState {lastSlot : ℕ}
    (h : ensureSyncState D o w = (w', some lastSlot)) :
    w'.db.syncState.map (·.lastSlot) = some lastSlot := by
  unfold ensureSyncState at h
  split at h
  split at h
  · cases h
  · obtain ⟨rfl, hlast⟩ := Prod.mk.inj h
    exact hlast

/-- A property that the writes of every slot keep, and so do the cursor's, holds throughout a
tick; the cursor only moves over slots that have gone through. -/
theorem through_tick (hslots : ∀ slot, Keeps D slot Φ)
    (hensure : ∀ genesisHash db, Φ db → Φ (db.upsertSyncState genesisHash))
    (hmove : ∀ w₁ w₂ lastSlot count, w₁.db.syncState.map (·.lastSlot) = some lastSlot →
      indexSlots D o (lastSlot + 1) count w₁ = (w₂, true) → Φ w₂.db →
      Φ (w₂.db.updateSyncState (lastSlot + count)))
    (h : Φ w.db) : Through Φ w (tick D o w).1 := by
  have hcursor := through_ensureSyncState (D := D) (o := o) hensure h
  unfold tick
  split
  · rename_i w₁ hcall
    rwa [hcall] at hcursor
  · rename_i w₁ lastSlot hcall
    have hlast := lastSlot_of_ensureSyncState hcall
    rw [hcall] at hcursor
    have hrpc := hcursor.trans (through_rpc (o := o) hcursor.1 .getSlot)
    dsimp only
    split
    · rename_i w₂ hslot
      rwa [hslot] at hrpc
    · rename_i w₂ hslot
      have hdb : w₂.db = w₁.db := by
        rw [← congrArg (fun out => out.1.db) hslot]
        rfl
      rw [hslot] at hrpc
      split
      · exact hrpc
      · rename_i hhead
        set upTo := min (o.head w₁.calls) (lastSlot + D.batchSize) with hupTo
        have hindexed := hrpc.trans
          (through_indexSlots (o := o) hslots (lastSlot + 1) (upTo - lastSlot) hrpc.1)
        split
        · rename_i w₃ hcall'
          rwa [hcall'] at hindexed
        · rename_i w₃ hcall'
          rw [hcall'] at hindexed
          have hmoved := hmove w₂ w₃ lastSlot (upTo - lastSlot) (hdb ▸ hlast) hcall' hindexed.1
          rw [Nat.add_sub_cancel' (show lastSlot ≤ upTo by omega)] at hmoved
          have hwrite := hindexed.trans (through_write (o := o) hindexed.1 hmoved .updateSyncState)
          split
          · rename_i w₄ hcall''
            rwa [hcall''] at hwrite
          · rename_i w₄ hcall''
            rwa [hcall''] at hwrite

end Ticks

section Complete

theorem complete_upsertSyncState (hstart : D.chain.blocks 0 = none) (genesisHash : String)
    (db : Database) (h : Complete D db) : Complete D (db.upsertSyncState genesisHash) := by
  intro state hstate slot hslot
  cases hold : db.syncState with
  | none =>
    simp only [Database.upsertSyncState, hold, Option.some.injEq] at hstate
    subst hstate
    obtain rfl : slot = 0 := Nat.le_zero.mp hslot
    intro block hblock
    exact absurd (hstart.symm.trans hblock) (by simp)
  | some old =>
    have hlast : state.lastSlot = old.lastSlot := by
      simp only [Database.upsertSyncState, hold, Option.some.injEq] at hstate
      subst hstate
      split <;> rfl
    exact h old hold slot (hlast ▸ hslot)

theorem keeps_complete (slot : ℕ) : Keeps D slot (Complete D) where
  block block hblock db h :=
    ((keeps_grows db slot).block block hblock db (Grows.refl db)).complete h
  transaction block hblock index signature hsignature tx txMeta hserved db h :=
    ((keeps_grows db slot).transaction block hblock index signature hsignature tx txMeta hserved db
      (Grows.refl db)).complete h
  address block hblock signature hsignature tx txMeta hserved address haddress db h :=
    ((keeps_grows db slot).address block hblock signature hsignature tx txMeta hserved address
      haddress db (Grows.refl db)).complete h

theorem complete_updateSyncState (ho : o.CreatesRows) (w₁ w₂ : World) (lastSlot count : ℕ)
    (hlast : w₁.db.syncState.map (·.lastSlot) = some lastSlot)
    (hindexed : indexSlots D o (lastSlot + 1) count w₁ = (w₂, true)) (h : Complete D w₂.db) :
    Complete D (w₂.db.updateSyncState (lastSlot + count)) := by
  have hgrows : Grows w₁.db (indexSlots D o (lastSlot + 1) count w₁).1.db :=
    (through_indexSlots (keeps_grows w₁.db) _ _ (Grows.refl w₁.db)).1
  rw [hindexed] at hgrows
  obtain ⟨state, hstate, rfl⟩ := Option.map_eq_some_iff.mp hlast
  intro state' hstate' slot hslot
  obtain ⟨old, -, hmoved⟩ := Option.map_eq_some_iff.mp hstate'
  have hupTo : slot ≤ state.lastSlot + count := by
    rwa [← hmoved] at hslot
  rcases Nat.lt_or_ge state.lastSlot slot with hnew | hold
  · exact indexSlots_done ho hindexed slot hnew (by omega)
  · exact h state (hgrows.syncState.trans hstate) slot hold

def Sound (D : Deps) (w : World) : Prop := ∀ db ∈ w.states, Complete D db

variable {w : World}

theorem sound_start : Sound D .start := by
  intro db hdb state hstate
  cases List.mem_singleton.mp hdb
  cases hstate

theorem sound_tick (hstart : D.chain.blocks 0 = none) (ho : o.CreatesRows) (hw : Sound D w) :
    Sound D (tick D o w).1 := by
  have h := through_tick keeps_complete (complete_upsertSyncState hstart)
    (complete_updateSyncState ho) (hw w.db List.mem_cons_self)
  intro db hdb
  rcases List.mem_cons.mp hdb with rfl | hpast
  · exact h.1
  · rcases h.2 db hpast with hold | hnew
    · exact hw db (List.mem_cons_of_mem _ hold)
    · exact hnew

theorem sound_runTicks (hstart : D.chain.blocks 0 = none) (ho : o.CreatesRows) (ticks : ℕ)
    (hw : Sound D w) : Sound D (runTicks D o ticks w) := by
  induction ticks generalizing w with
  | zero => exact hw
  | succ ticks ih => exact ih (sound_tick hstart ho hw)

end Complete

/-! ## Indexing again -/

def Chain.Distinct (chain : Chain) : Prop :=
  ∀ slot block slot' block', chain.blocks slot = some block → chain.blocks slot' = some block' →
    ∀ (index index' : ℕ) (signature : String), block.signatures[index]? = some signature →
      block'.signatures[index']? = some signature → slot = slot' ∧ index = index'

/-- The fields that a second write would overwrite are as the chain has them. -/
structure Faithful (D : Deps) (db : Database) : Prop where
  blocks : ∀ slot row, (slot, row) ∈ db.blocks.rows →
    ∀ block, D.chain.blocks slot = some block → row.txCount = block.signatures.length
  transactions : ∀ signature row, (signature, row) ∈ db.transactions.rows →
    ∀ slot block index, D.chain.blocks slot = some block →
      block.signatures[index]? = some signature →
      ∀ tx txMeta, D.chain.served signature = some (tx, txMeta) →
        row.indexInBlock = index ∧ row.success = txMeta.err.isNone ∧ row.err = txMeta.err

theorem keeps_faithful (hdistinct : D.chain.Distinct) (slot : ℕ) : Keeps D slot (Faithful D) where
  block block hblock db h :=
    { h with
      blocks := by
        intro slot' row hrow block' hblock'
        rcases Table.mem_upsert hrow with hold | ⟨rfl, ⟨old, -, rfl⟩ | rfl⟩
        · exact h.blocks slot' row hold block' hblock'
        · cases hblock.symm.trans hblock'
          rfl
        · cases hblock.symm.trans hblock'
          rfl }
  transaction block hblock index signature hsignature tx txMeta hserved db h :=
    { h with
      transactions := by
        intro signature' row hrow slot' block' index' hblock' hsignature' tx' txMeta' hserved'
        rcases Table.mem_upsert hrow with hold | ⟨rfl, hnew⟩
        · exact h.transactions signature' row hold slot' block' index' hblock' hsignature' tx'
            txMeta' hserved'
        · obtain ⟨-, rfl⟩ := hdistinct slot block slot' block' hblock hblock' index index'
            signature' hsignature hsignature'
          cases hserved.symm.trans hserved'
          rcases hnew with ⟨old, -, rfl⟩ | rfl
          · exact ⟨rfl, rfl, rfl⟩
          · exact ⟨rfl, rfl, rfl⟩ }
  address _ _ _ _ _ _ _ _ _ _ h := { h with }

theorem keeps_indexed {db : Database} (hfaithful : Faithful D db) {slot : ℕ}
    (hindexed : Indexed D db slot) : Keeps D slot (· = db) where
  block block hblock db' h := by
    subst h
    have hhas := Table.count_eq_one_iff.mp (hindexed block hblock).1
    rw [Database.upsertBlock, Table.upsert_eq_self hhas]
    intro row hrow
    rw [← hfaithful.blocks slot row hrow block hblock]
  transaction block hblock index signature hsignature tx txMeta hserved db' h := by
    subst h
    have hhas := Table.count_eq_one_iff.mp ((hindexed block hblock).2 signature
      (List.mem_of_getElem? hsignature) tx txMeta hserved).1
    rw [Database.upsertTransaction, Table.upsert_eq_self hhas]
    intro row hrow
    obtain ⟨hindex, hsuccess, herr⟩ := hfaithful.transactions signature row hrow slot block index
      hblock hsignature tx txMeta hserved
    rw [← hindex, ← hsuccess, ← herr]
  address block hblock signature hsignature tx txMeta hserved address haddress db' h := by
    subst h
    have hhas := Table.count_eq_one_iff.mp
      (((hindexed block hblock).2 signature hsignature tx txMeta hserved).2 address haddress)
    rw [Database.createAddressSignature, Table.insertNew_eq_self hhas]

theorem faithful_empty : Faithful D .empty where
  blocks _ _ h := nomatch h
  transactions _ _ h := nomatch h

theorem faithful_runTicks (hdistinct : D.chain.Distinct) (ticks : ℕ) {w : World}
    (h : Faithful D w.db) : Faithful D (runTicks D o ticks w).db := by
  induction ticks generalizing w with
  | zero => exact h
  | succ ticks ih =>
    -- the cursor's writes leave the other tables alone
    exact ih (through_tick (keeps_faithful hdistinct) (fun _ _ h => ⟨h.blocks, h.transactions⟩)
      (fun _ _ _ _ _ _ h => ⟨h.blocks, h.transactions⟩) h).1

theorem db_indexSlot_of_indexed {w : World} (hfaithful : Faithful D w.db) {slot : ℕ}
    (hindexed : Indexed D w.db slot) : (indexSlot D o slot w).1.db = w.db :=
  (through_indexSlot (keeps_indexed hfaithful hindexed) rfl).1

/-- If no row of the address index is refused, unless as a second one, everything up to the cursor
is in the database once at every moment of every run, and if no signature is at two places of the
chain, indexing a slot up to the cursor again changes nothing, whatever happens to the calls. -/
theorem index_complete_of_createsRows (D : Deps) (o : Oracle) (hstart : D.chain.blocks 0 = none)
    (ho : o.CreatesRows) (ticks : ℕ) :
    (∀ db ∈ (runTicks D o ticks .start).states, ∀ state, db.syncState = some state →
      ∀ slot ≤ state.lastSlot, ∀ block, D.chain.blocks slot = some block →
        db.blocks.count slot = 1 ∧
        ∀ signature ∈ block.signatures, ∀ tx txMeta,
          D.chain.served signature = some (tx, txMeta) →
          db.transactions.count signature = 1 ∧
          ∀ address ∈ accountKeys D tx txMeta,
            db.addressSignatures.count (address, signature) = 1) ∧
    (D.chain.Distinct →
      ∀ state, (runTicks D o ticks .start).db.syncState = some state →
      ∀ slot ≤ state.lastSlot, ∀ (o' : Oracle) (w : World),
        w.db = (runTicks D o ticks .start).db → (indexSlot D o' slot w).1.db = w.db) := by
  have hsound := sound_runTicks hstart ho ticks (sound_start (D := D))
  constructor
  · exact hsound
  · intro hdistinct state hstate slot hslot o' w hw
    have hfaithful := faithful_runTicks (o := o) hdistinct ticks (w := .start) faithful_empty
    have hindexed := hsound _ List.mem_cons_self state hstate slot hslot
    rw [← hw] at hfaithful hindexed
    exact db_indexSlot_of_indexed hfaithful hindexed

/-! ## One block -/

namespace Sample

def block : RpcBlock := ⟨"B1", "G", 1000, some "SR1", ["sig1"]⟩

def txMeta : TxMeta := ⟨none, some 5000, some 150, some ["Program log: ok"], some ["payer"]⟩

def tx : RpcTransaction := ⟨some txMeta, some ""⟩

/-- A block at slot 1 with one transaction of one account. -/
def deps : Deps where
  chain := {
    genesisHash := "GENESIS"
    blocks := fun slot => if slot = 1 then some block else none
    transactions := fun signature => if signature = "sig1" then some tx else none }
  base64Decode _ := []
  batchSize := 256

def answering : Oracle := ⟨fun _ _ => .answered, fun _ => 1⟩

def isCreate : Call → Bool
  | .createAddressSignature _ _ => true
  | _ => false

def refusing : Oracle := ⟨fun _ call => if isCreate call then .refused else .answered, fun _ => 1⟩

end Sample

/-- A tick indexes the block. -/
theorem sample_indexed :
    Sample.deps.chain.blocks 0 = none ∧ Sample.answering.CreatesRows ∧
    ∃ db ∈ (runTicks Sample.deps Sample.answering 1 .start).states,
      db.syncState.map (·.lastSlot) = some 1 ∧ db.blocks.count 1 = 1 ∧
      db.transactions.count "sig1" = 1 ∧ db.addressSignatures.count ("payer", "sig1") = 1 := by
  have hstart : Sample.deps.chain.blocks 0 = none := rfl
  have ho : Sample.answering.CreatesRows := fun _ _ _ h => nomatch h
  obtain ⟨hrow, htransactions⟩ := (index_complete_of_createsRows _ _ hstart ho 1).1
    (runTicks Sample.deps Sample.answering 1 .start).db List.mem_cons_self ⟨1, "GENESIS"⟩ rfl 1
    le_rfl Sample.block rfl
  obtain ⟨htx, hpairs⟩ := htransactions "sig1" List.mem_cons_self Sample.tx Sample.txMeta rfl
  exact ⟨hstart, ho, _, List.mem_cons_self, rfl, hrow, htx, hpairs "payer" List.mem_cons_self⟩

/-- With the address index refused the cursor still passes the block. -/
theorem refused_pair_passed_over :
    (runTicks Sample.deps Sample.refusing 1 .start).db.syncState.map (·.lastSlot) = some 1 ∧
    Sample.deps.chain.blocks 1 = some Sample.block ∧ "sig1" ∈ Sample.block.signatures ∧
    Sample.deps.chain.served "sig1" = some (Sample.tx, Sample.txMeta) ∧
    "payer" ∈ accountKeys Sample.deps Sample.tx Sample.txMeta ∧
    (runTicks Sample.deps Sample.refusing 1 .start).db.addressSignatures.count ("payer", "sig1") =
      0 :=
  ⟨rfl, rfl, List.mem_cons_self, rfl, List.mem_cons_self, rfl⟩

end Zul.Indexer
