import Zul.Lib.Lists
import Zul.Node.Watcher

/-! # Complete crediting

The client lists the newest hundred transactions and takes one deposit from each; the deposit
loop keys its receipts by the L1 signature. So a history is delivered in full exactly when its
older transactions deposited nothing and each listed one deposited at most once, and it is
credited in full exactly when no deposit finds its receipt address taken or a token buffer too
short.
-/

namespace Zul.Node

open Bridge WrappedSpl

/-! ## Fetching -/

/-- What the settlement program deposited in a successful transaction. -/
def emittedIn (tx : L1Transaction) : List DepositEvent := if tx.failed then [] else tx.emitted

/-- What the settlement program deposited in the successful transactions of a history. -/
def emittedBy (history : List L1Transaction) : List DepositEvent := history.flatMap emittedIn

/-- Transactions beyond the newest hundred deposited nothing; the others are unforged and
deposited at most once. -/
structure Deliverable (history : List L1Transaction) : Prop where
  older : ∀ tx ∈ history.take (history.length - 100), tx.failed = false → tx.emitted = []
  listed : ∀ tx ∈ history.drop (history.length - 100), tx.failed = false →
    Unforged tx ∧ tx.emitted.length ≤ 1

theorem emittedIn_signature {tx : L1Transaction} {event : DepositEvent} (h : event ∈ emittedIn tx) :
    event.l1Signature = tx.signature := by
  unfold emittedIn at h
  split at h
  · cases h
  · exact emitted_signature h

theorem found_signature {tx : L1Transaction} {event : DepositEvent} (h : event ∈ tx.found.toList) :
    event.l1Signature = tx.signature :=
  depositInTx_signature (L1Transaction.found_eq_some_iff.mp (Option.mem_toList.mp h)).2

theorem depositInTx_isSome {tx : L1Transaction} (h : tx.emitted ≠ []) :
    (depositInTx tx.signature tx.log).isSome := by
  obtain ⟨event, hevent⟩ := List.exists_mem_of_ne_nil _ h
  obtain ⟨entry, hentry, hevent⟩ := List.mem_filterMap.mp hevent
  cases entry with
  | line program text => cases hevent
  | deposited d =>
    rw [depositInTx, List.findSome?_isSome_iff]
    exact ⟨.deposited d, hentry, by rw [LogEntry.text, depositInLine_line]; rfl⟩

/-- The client finds what was deposited in a successful transaction exactly when that is one
deposit at most and the transaction is unforged. -/
theorem found_perm_emitted_iff {tx : L1Transaction} (hfailed : tx.failed = false) :
    tx.found.toList.Perm (emittedIn tx) ↔ Unforged tx ∧ tx.emitted.length ≤ 1 := by
  have hfound : tx.found = depositInTx tx.signature tx.log := by
    rw [L1Transaction.found, hfailed]
    rfl
  have hemitted : emittedIn tx = tx.emitted := by
    rw [emittedIn, hfailed]
    rfl
  rw [hfound, hemitted, ← depositInTx_emitted_iff]
  constructor
  · intro hperm
    refine ⟨fun event hevent => hperm.subset (Option.mem_toList.mpr hevent), ?_⟩
    rw [← hperm.length_eq]
    cases depositInTx tx.signature tx.log <;> simp
  · rintro ⟨hown, hlen⟩
    cases hcase : tx.emitted with
    | nil =>
      cases hd : depositInTx tx.signature tx.log with
      | none => exact List.Perm.refl _
      | some event =>
        have := hown event hd
        rw [hcase] at this
        cases this
    | cons event rest =>
      have hsome : (depositInTx tx.signature tx.log).isSome := depositInTx_isSome (by simp [hcase])
      obtain ⟨event', hd⟩ := Option.isSome_iff_exists.mp hsome
      have hmem := hown event' hd
      rw [hcase] at hmem hlen
      have hrest : rest = [] := List.eq_nil_of_length_eq_zero (by simpa using hlen)
      rw [hrest, List.mem_singleton] at hmem
      rw [hd, hmem, hrest]
      exact List.Perm.refl _

theorem fetchDeposits_eq_flatMap {history : List L1Transaction}
    (hnodup : (history.map (·.signature)).Nodup) :
    fetchDeposits history none =
      (history.drop (history.length - 100)).flatMap fun tx => tx.found.toList := by
  rw [fetchDeposits_none hnodup, List.filterMap_eq_flatMap_toList]

theorem emittedBy_split (history : List L1Transaction) (n : ℕ) :
    emittedBy history = (history.take n).flatMap emittedIn ++
      (history.drop n).flatMap emittedIn := by
  rw [← List.flatMap_append, List.take_append_drop]
  rfl

theorem emittedIn_of_failed {tx : L1Transaction} (h : tx.failed = true) : emittedIn tx = [] :=
  if_pos h

theorem fetchDeposits_of_deliverable {history : List L1Transaction}
    (hnodup : (history.map (·.signature)).Nodup) (h : Deliverable history) :
    fetchDeposits history none = emittedBy history := by
  have holder : (history.take (history.length - 100)).flatMap emittedIn = [] := by
    rw [List.flatMap_eq_nil_iff]
    intro tx htx
    cases hfailed : tx.failed with
    | true => exact emittedIn_of_failed hfailed
    | false =>
      rw [emittedIn, hfailed]
      exact h.older tx htx hfailed
  rw [fetchDeposits_eq_flatMap hnodup, emittedBy_split history (history.length - 100), holder,
    List.nil_append]
  refine List.flatMap_congr fun tx htx => ?_
  cases hfailed : tx.failed with
  | true =>
    rw [emittedIn_of_failed hfailed, L1Transaction.found, if_pos hfailed]
    rfl
  | false =>
    have hperm := (found_perm_emitted_iff hfailed).mpr (h.listed tx htx hfailed)
    have hlen := (h.listed tx htx hfailed).2
    cases hfound : tx.found with
    | none =>
      rw [hfound] at hperm
      exact (List.nil_perm.mp hperm).symm
    | some event =>
      rw [hfound] at hperm
      exact (List.perm_singleton.mp hperm.symm).symm

theorem fetchDeposits_perm_iff {history : List L1Transaction}
    (hnodup : (history.map (·.signature)).Nodup) :
    (fetchDeposits history none).Perm (emittedBy history) ↔ Deliverable history := by
  constructor
  · intro hperm
    rw [fetchDeposits_eq_flatMap hnodup] at hperm
    have hfind : ∀ tx ∈ history.drop (history.length - 100), ∀ b ∈ tx.found.toList,
        b.l1Signature = tx.signature := fun _ _ _ => found_signature
    have hemit : ∀ tx ∈ history, ∀ b ∈ emittedIn tx, b.l1Signature = tx.signature :=
      fun _ _ _ => emittedIn_signature
    -- compare the two sides under the signature of one transaction
    have hgroup : ∀ tx ∈ history, (((history.drop (history.length - 100)).flatMap fun tx =>
        tx.found.toList).filter fun b => b.l1Signature = tx.signature).Perm (emittedIn tx) := by
      intro tx htx
      have h := hperm.filter fun b => decide (b.l1Signature = tx.signature)
      rwa [emittedBy, List.filter_flatMap_of_key hnodup hemit htx] at h
    constructor
    · intro tx htx hfailed
      have hsplit : ((history.take (history.length - 100) ++
          history.drop (history.length - 100)).map (·.signature)).Nodup := by
        rwa [List.take_append_drop]
      rw [List.map_append] at hsplit
      have hnot : tx.signature ∉ (history.drop (history.length - 100)).map (·.signature) :=
        fun hin => (List.nodup_append.mp hsplit).2.2 _ (List.mem_map_of_mem htx) _ hin rfl
      have h := hgroup tx (List.mem_of_mem_take htx)
      rw [List.filter_flatMap_of_key_notMem hfind hnot, List.nil_perm, emittedIn, hfailed] at h
      exact h
    · intro tx htx hfailed
      have h := hgroup tx (List.mem_of_mem_drop htx)
      rw [List.filter_flatMap_of_key (hnodup.sublist ((List.drop_sublist ..).map _)) hfind htx] at h
      exact (found_perm_emitted_iff hfailed).mp h
  · intro h
    rw [fetchDeposits_of_deliverable hnodup h]

/-! ## Crediting -/

/-- What the deposit loop reads of the accounts: which addresses are taken and how long their
data is. -/
structure Footprint where
  taken : Set Pubkey
  lengths : PartialMap Pubkey ℕ

namespace Footprint

/-- The footprint of the accounts seen through a block's writes. An account deleted in the block
is still taken. -/
def of (store : Store) (writes : AccountWrites) : Footprint where
  taken := { k | (writes k).isSome || (store.getAccount k).isSome }
  lengths := fun k => (loadThrough store writes k).map (·.data.length)

/-- Write an account of `n` bytes. -/
def put (f : Footprint) (k : Pubkey) (n : ℕ) : Footprint :=
  ⟨insert k f.taken, f.lengths.insert k n⟩

/-- Update an account in place, or create it with `n` bytes. -/
def touch (f : Footprint) (k : Pubkey) (n : ℕ) : Footprint := f.put k ((f.lengths k).getD n)

variable (P : Prims) (gasMint : Option Pubkey)

/-- A deposit is credited when its receipt address is free and, for a wrapped one, the mint and
the token account are long enough for the fields written. -/
def Admits (f : Footprint) (d : DepositEvent) : Prop :=
  depositReceiptAddress P d.l1Signature ∉ f.taken ∧
    (creditsNativeGas gasMint d.mint = false →
      (∀ n, f.lengths (wrappedMint P d) = some n → 44 ≤ n) ∧
      ∀ n, (f.touch (wrappedMint P d) MINT_LEN).lengths (wrappedAccount P d) = some n → 72 ≤ n)

def credit (f : Footprint) (d : DepositEvent) : Footprint :=
  let credited :=
    if creditsNativeGas gasMint d.mint then f.touch d.l2Recipient 0
    else (f.touch (wrappedMint P d) MINT_LEN).touch (wrappedAccount P d) ACCOUNT_LEN
  credited.put (depositReceiptAddress P d.l1Signature) 40

def Creditable (f : Footprint) : List DepositEvent → Prop
  | [] => True
  | d :: deposits => f.Admits P gasMint d ∧ Creditable (f.credit P gasMint d) deposits

theorem of_insert (store : Store) (writes : AccountWrites) (k : Pubkey) (account : StoredAccount) :
    of store (writes.insert k (some account)) = (of store writes).put k account.data.length := by
  unfold of put
  congr 1
  · ext j
    by_cases hj : j = k
    · subst hj
      simp
    · simp [PartialMap.insert_of_ne _ _ hj, hj]
  · funext j
    dsimp only
    rw [loadThrough_insert, PartialMap.insert_apply]
    split <;> rfl

end Footprint

section

variable {P : Prims} {store : Store} {gasMint : Option Pubkey}

theorem footprint_creditNative (recipient : Pubkey) (amount : UInt64) (writes : AccountWrites) :
    Footprint.of store (creditNative store recipient amount writes) =
      (Footprint.of store writes).touch recipient 0 := by
  rw [creditNative, Footprint.of_insert]
  simp only [Footprint.touch, Footprint.of]
  cases loadThrough store writes recipient <;> rfl

theorem mintWithSupply_spec (amount : UInt64) (decimals : UInt8) (old : Option StoredAccount) :
    ((mintWithSupply amount decimals old).isSome ↔ ∀ account ∈ old, 44 ≤ account.data.length) ∧
      ∀ new ∈ mintWithSupply amount decimals old,
        new.data.length = (old.map (·.data.length)).getD MINT_LEN := by
  cases old with
  | none =>
    refine ⟨by simp [mintWithSupply], ?_⟩
    rintro new ⟨⟩
    exact length_packMint _ _ _
  | some account =>
    refine ⟨by simp [mintWithSupply, setMintSupply_isSome], ?_⟩
    intro new hnew
    obtain ⟨data, hdata, rfl⟩ := Option.map_eq_some_iff.mp hnew
    exact length_setMintSupply hdata

theorem tokenWithAmount_spec (wmint recipient : Pubkey) (amount : UInt64)
    (old : Option StoredAccount) :
    ((tokenWithAmount wmint recipient amount old).isSome ↔
        ∀ account ∈ old, 72 ≤ account.data.length) ∧
      ∀ new ∈ tokenWithAmount wmint recipient amount old,
        new.data.length = (old.map (·.data.length)).getD ACCOUNT_LEN := by
  cases old with
  | none =>
    refine ⟨by simp [tokenWithAmount], ?_⟩
    rintro new ⟨⟩
    exact length_packTokenAccount _ _ _
  | some account =>
    refine ⟨by simp [tokenWithAmount, setTokenAccountAmount_isSome], ?_⟩
    intro new hnew
    obtain ⟨data, hdata, rfl⟩ := Option.map_eq_some_iff.mp hnew
    exact length_setTokenAccountAmount hdata

theorem forall_lengths_iff (writes : AccountWrites) (k : Pubkey) (m : ℕ) :
    (∀ n, (Footprint.of store writes).lengths k = some n → m ≤ n) ↔
      ∀ account ∈ loadThrough store writes k, m ≤ account.data.length := by
  simp only [Footprint.of, Option.map_eq_some_iff, Option.mem_def]
  constructor
  · intro h account haccount
    exact h _ ⟨account, haccount, rfl⟩
  · rintro h n ⟨account, haccount, rfl⟩
    exact h account haccount

theorem creditWrappedSpl_isSome (mint recipient : Pubkey) (amount : UInt64) (decimals : UInt8)
    (writes : AccountWrites) :
    (creditWrappedSpl P store mint recipient amount decimals writes).isSome ↔
      (∀ n, (Footprint.of store writes).lengths (wrappedMintAddress P mint) = some n → 44 ≤ n) ∧
      ∀ n, ((Footprint.of store writes).touch (wrappedMintAddress P mint) MINT_LEN).lengths
        (associatedTokenAddress P recipient (wrappedMintAddress P mint)) = some n → 72 ≤ n := by
  obtain ⟨hmint, hmintLen⟩ := mintWithSupply_spec amount decimals
    (loadThrough store writes (wrappedMintAddress P mint))
  rw [forall_lengths_iff, ← hmint]
  simp only [creditWrappedSpl, creditMint]
  cases hnew : mintWithSupply amount decimals
      (loadThrough store writes (wrappedMintAddress P mint)) with
  | none => simp
  | some account =>
    have hlen := hmintLen account hnew
    have hput : (Footprint.of store writes).touch (wrappedMintAddress P mint) MINT_LEN =
        Footprint.of store (writes.insert (wrappedMintAddress P mint) (some account)) := by
      rw [Footprint.of_insert, hlen]
      rfl
    rw [hput, forall_lengths_iff]
    simp [creditTokenAccount, (tokenWithAmount_spec _ _ _ _).1]

theorem footprint_creditWrappedSpl {mint recipient : Pubkey} {amount : UInt64} {decimals : UInt8}
    {writes writes' : AccountWrites}
    (h : creditWrappedSpl P store mint recipient amount decimals writes = some writes') :
    Footprint.of store writes' =
      ((Footprint.of store writes).touch (wrappedMintAddress P mint) MINT_LEN).touch
        (associatedTokenAddress P recipient (wrappedMintAddress P mint)) ACCOUNT_LEN := by
  simp only [creditWrappedSpl, Option.bind_eq_bind, Option.bind_eq_some_iff] at h
  obtain ⟨minted, hmint, htoken⟩ := h
  obtain ⟨mintAccount, hmintAccount, rfl⟩ := Option.map_eq_some_iff.mp hmint
  obtain ⟨tokenAccount, htokenAccount, rfl⟩ := Option.map_eq_some_iff.mp htoken
  rw [Footprint.of_insert, (tokenWithAmount_spec _ _ _ _).2 _ htokenAccount]
  have hput : Footprint.of store (writes.insert (wrappedMintAddress P mint) (some mintAccount)) =
      (Footprint.of store writes).touch (wrappedMintAddress P mint) MINT_LEN := by
    rw [Footprint.of_insert, (mintWithSupply_spec _ _ _).2 _ hmintAccount]
    rfl
  rw [← hput]
  rfl

theorem applyDeposit_of_admits {writes : AccountWrites} (done : List DepositEvent)
    {d : DepositEvent} (h : (Footprint.of store writes).Admits P gasMint d) :
    ∃ writes', applyDeposit P store gasMint (writes, done) d = some (writes', done ++ [d]) ∧
      Footprint.of store writes' = (Footprint.of store writes).credit P gasMint d := by
  obtain ⟨hfree, hfit⟩ := h
  have hnew : isCredited P store writes d = false := by simpa [isCredited, Footprint.of] using hfree
  have hreceipt : (receiptAccount d).data.length = 40 := by simp [receiptAccount]
  cases hgas : creditsNativeGas gasMint d.mint with
  | true =>
    refine ⟨_, by rw [applyDeposit, hnew, creditDeposit, hgas]; rfl, ?_⟩
    rw [Footprint.of_insert, footprint_creditNative, hreceipt, Footprint.credit, hgas]
    rfl
  | false =>
    obtain ⟨writes', hwrites'⟩ := Option.isSome_iff_exists.mp
      ((creditWrappedSpl_isSome _ _ d.amount (wrappedAs d).2 writes).mpr (hfit hgas))
    refine ⟨_, by rw [applyDeposit, hnew, creditDeposit, hgas, hwrites']; rfl, ?_⟩
    rw [Footprint.of_insert, footprint_creditWrappedSpl hwrites', hreceipt, Footprint.credit, hgas]
    rfl

theorem applyDeposit_of_not_admits {acc out : AccountWrites × List DepositEvent} {d : DepositEvent}
    (h : ¬ (Footprint.of store acc.1).Admits P gasMint d)
    (hout : applyDeposit P store gasMint acc d = some out) : out = acc := by
  unfold applyDeposit at hout
  split at hout
  · cases hout
    rfl
  · rename_i hnew
    simp only [Option.bind_eq_bind, Option.bind_eq_some_iff] at hout
    obtain ⟨writes, hcredit, -⟩ := hout
    refine absurd ⟨?_, ?_⟩ h
    · simpa [isCredited, Footprint.of] using hnew
    · intro hgas
      rw [creditDeposit, hgas] at hcredit
      exact (creditWrappedSpl_isSome _ _ _ _ _).mp (Option.isSome_of_eq_some hcredit)

theorem applyDeposits_all_iff (deposits : List DepositEvent) (writes : AccountWrites)
    (done : List DepositEvent) :
    (∃ writes', deposits.foldlM (applyDeposit P store gasMint) (writes, done) =
        some (writes', done ++ deposits)) ↔
      (Footprint.of store writes).Creditable P gasMint deposits := by
  induction deposits generalizing writes done with
  | nil => simp [Footprint.Creditable]
  | cons d deposits ih =>
    rw [Footprint.Creditable]
    by_cases hadmits : (Footprint.of store writes).Admits P gasMint d
    · obtain ⟨writes₁, hone, hfoot⟩ := applyDeposit_of_admits done hadmits
      rw [List.foldlM_cons, hone, ← hfoot, ← ih writes₁ (done ++ [d])]
      simp [hadmits]
    · simp only [hadmits, false_and, iff_false]
      rintro ⟨writes', h⟩
      rw [List.foldlM_cons, Option.bind_eq_bind, Option.bind_eq_some_iff] at h
      obtain ⟨acc₁, hone, h⟩ := h
      rw [applyDeposit_of_not_admits hadmits hone] at h
      -- a skipped deposit leaves fewer than the list has
      obtain ⟨l, hl, hout⟩ := applyDeposits_sublist h
      have hlen := congrArg List.length (List.append_cancel_left hout)
      have := hl.length_le
      rw [List.length_cons] at hlen
      omega

end

/-- Every deposit of a history is fetched, and the fetched ones are credited, none dropped and
none merged. -/
def AllCredited (P : Prims) (store : Store) (gasMint : Option Pubkey) (writes : AccountWrites)
    (history : List L1Transaction) : Prop :=
  (fetchDeposits history none).Perm (emittedBy history) ∧
    ∃ writes' credited,
      applyDeposits P store gasMint (fetchDeposits history none) writes = some (writes', credited) ∧
        credited.Perm (emittedBy history)

/-- A history is credited in full exactly when it is deliverable and its deposits creditable. -/
theorem all_credited_iff (P : Prims) (store : Store) (gasMint : Option Pubkey)
    (writes : AccountWrites) (history : List L1Transaction)
    (hnodup : (history.map (·.signature)).Nodup) :
    AllCredited P store gasMint writes history ↔
      Deliverable history ∧
        (Footprint.of store writes).Creditable P gasMint (emittedBy history) := by
  unfold AllCredited
  rw [fetchDeposits_perm_iff hnodup]
  refine and_congr_right fun hdeliver => ?_
  rw [fetchDeposits_of_deliverable hnodup hdeliver, ← applyDeposits_all_iff _ _ []]
  constructor
  · rintro ⟨writes', credited, happly, hperm⟩
    obtain ⟨l, hl, hcredited⟩ := applyDeposits_sublist happly
    have hall : credited = emittedBy history := by
      rw [show credited = l from hcredited] at hperm ⊢
      exact hl.eq_of_length hperm.length_eq
    exact ⟨writes', by rw [← hall] at happly ⊢; exact happly⟩
  · rintro ⟨writes', happly⟩
    exact ⟨writes', _, happly, List.Perm.refl _⟩

namespace Sample

def twoDepositsL1Tx : L1Transaction where
  signature := "5xTwice"
  failed := false
  log := [.deposited ⟨Bytes.replicate 32 6, 500, deposit.l2Recipient, none, 9⟩,
    .deposited ⟨Bytes.replicate 32 6, 700, deposit.l2Recipient, none, 9⟩]

end Sample

/-- The sample deposit is credited on an empty store. -/
theorem deposit_all_credited :
    AllCredited Sample.prims Store.empty none (fun _ => none) [Sample.depositL1Tx] := by
  have hnodup : ([Sample.depositL1Tx].map (·.signature)).Nodup := List.nodup_singleton _
  refine (all_credited_iff _ _ _ _ _ hnodup).mpr ⟨⟨?_, ?_⟩, ?_⟩
  · rintro tx ⟨⟩
  · intro tx htx _
    rw [List.mem_singleton.mp htx]
    exact ⟨Sample.unforged_depositL1Tx, by decide⟩
  · refine ⟨⟨?_, ?_⟩, trivial⟩
    · exact Bool.false_ne_true
    · intro h
      cases h

/-- Of two deposits in one transaction the second is dropped. -/
theorem second_deposit_dropped :
    emittedBy [Sample.twoDepositsL1Tx] =
      [⟨"5xTwice", none, 9, 500, Sample.deposit.l2Recipient⟩,
        ⟨"5xTwice", none, 9, 700, Sample.deposit.l2Recipient⟩] ∧
    fetchDeposits [Sample.twoDepositsL1Tx] none =
      [⟨"5xTwice", none, 9, 500, Sample.deposit.l2Recipient⟩] ∧
    ¬ AllCredited Sample.prims Store.empty none (fun _ => none) [Sample.twoDepositsL1Tx] := by
  have hnodup : ([Sample.twoDepositsL1Tx].map (·.signature)).Nodup := List.nodup_singleton _
  have hfound : depositInTx Sample.twoDepositsL1Tx.signature Sample.twoDepositsL1Tx.log =
      some ⟨"5xTwice", none, 9, 500, Sample.deposit.l2Recipient⟩ := by
    rw [depositInTx, Sample.twoDepositsL1Tx, List.findSome?_cons]
    simp only [LogEntry.text]
    rw [depositInLine_line]
    rfl
  have hfetch : fetchDeposits [Sample.twoDepositsL1Tx] none =
      [⟨"5xTwice", none, 9, 500, Sample.deposit.l2Recipient⟩] := by
    rw [fetchDeposits_none hnodup]
    exact List.filterMap_cons_some (L1Transaction.found_eq_some_iff.mpr ⟨rfl, hfound⟩)
  refine ⟨rfl, hfetch, ?_⟩
  rintro ⟨hperm, -⟩
  have hlen := hperm.length_eq
  rw [hfetch] at hlen
  cases hlen

end Zul.Node
