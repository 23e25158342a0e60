import Zul.Node.Completeness
import Zul.Node.Routing
import Zul.Node.WithdrawView

/-! # The deposits one block credits

A signature is credited at most once in a block, never if its receipt is committed, and always
with its receipt; a credit adds the deposit's amount to the balance it goes to. That every other
signature of the list is credited depends on the addresses the block has written before: a write
at a receipt's address, of whatever kind, passes for the receipt.
-/

namespace Zul.Node

open Bridge WrappedSpl

section Definitions

variable (P : Prims) (store : Store) (gasMint : Option Pubkey)

/-- The deposits a block has to credit: the first one of each signature without a committed
receipt. The signatures met before are `seen`. -/
def newDeposits (seen : List String) : List DepositEvent → List DepositEvent
  | [] => []
  | d :: deposits =>
    if d.l1Signature ∈ seen ∨ (store.getAccount (depositReceiptAddress P d.l1Signature)).isSome then
      newDeposits seen deposits
    else d :: newDeposits (d.l1Signature :: seen) deposits

/-- The receipt of a deposit stands in the writes; lamports may have been added to it. -/
def ReceiptWritten (writes : AccountWrites) (d : DepositEvent) : Prop :=
  ∃ lamports, writes (depositReceiptAddress P d.l1Signature) =
    some (some { receiptAccount d with lamports })

/-- What crediting a deposit does to the balances a block loads: the recipient's lamports, or the
mint's supply and the recipient's tokens, grow by the amount, and nothing else is written. -/
structure Credit (writes : AccountWrites) (d : DepositEvent) (writes' : AccountWrites) : Prop where
  lamports : creditsNativeGas gasMint d.mint = true →
    balanceOf store writes' (.lamports d.l2Recipient) =
      (balanceOf store writes (.lamports d.l2Recipient)).saturatingAdd d.amount
  supply : creditsNativeGas gasMint d.mint = false →
    supplyOf (loadThrough store writes' (wrappedMint P d)) =
      (supplyOf (loadThrough store writes (wrappedMint P d))).saturatingAdd d.amount
  tokens : creditsNativeGas gasMint d.mint = false →
    balanceOf store writes' (.tokens (wrappedAccount P d)) =
      (balanceOf store writes (.tokens (wrappedAccount P d))).saturatingAdd d.amount
  frame : ∀ k, (if creditsNativeGas gasMint d.mint then k ≠ d.l2Recipient
    else k ≠ wrappedMint P d ∧ k ≠ wrappedAccount P d) → writes' k = writes k

/-- The deposits are credited one after the other, and each one's receipt is written. -/
inductive CreditedInTurn : AccountWrites → List DepositEvent → AccountWrites → Prop
  | nil (writes : AccountWrites) : CreditedInTurn writes [] writes
  | cons {writes credited writes' : AccountWrites} {d : DepositEvent} {ds : List DepositEvent}
      (credit : Credit P store gasMint writes d credited)
      (rest : CreditedInTurn
        (credited.insert (depositReceiptAddress P d.l1Signature) (some (receiptAccount d))) ds
        writes') :
      CreditedInTurn writes (d :: ds) writes'

/-- Every signature without a committed receipt is credited once and no other one, each with its
receipt, and the block's writes are those of these credits. -/
structure CreditsEachOnce (deposits : List DepositEvent) (before writes : AccountWrites)
    (credited : List DepositEvent) : Prop where
  listed : credited.Sublist deposits
  once : ∀ d ∈ deposits, store.getAccount (depositReceiptAddress P d.l1Signature) = none →
    (credited.map (·.l1Signature)).count d.l1Signature = 1
  never : ∀ d ∈ deposits, (store.getAccount (depositReceiptAddress P d.l1Signature)).isSome →
    d.l1Signature ∉ credited.map (·.l1Signature)
  receipts : ∀ d ∈ credited, ReceiptWritten P writes d
  effects : CreditedInTurn P store gasMint before credited writes

end Definitions

section Loop

variable {P : Prims} {store : Store} {gasMint : Option Pubkey} {deposits : List DepositEvent}
  {writes : AccountWrites} {done : List DepositEvent}

/-! ## Receipts -/

theorem creditDeposit_short {d : DepositEvent} {writes' : AccountWrites} {k : Pubkey}
    {account : StoredAccount} (hcredit : creditDeposit P store gasMint writes d = some writes')
    (haccount : writes k = some (some account)) (hshort : account.data.length < 44) :
    ∃ lamports, writes' k = some (some { account with lamports }) := by
  have hload : loadThrough store writes k = some account := by simp [loadThrough, haccount]
  have hlength : (Footprint.of store writes).lengths k = some account.data.length := by
    simp [Footprint.of, hload]
  rcases creditDeposit_cases hcredit with ⟨-, rfl⟩ | ⟨hwrapped, mint, token, -, -, rfl⟩
  · by_cases hsame : k = d.l2Recipient
    · refine ⟨account.lamports.saturatingAdd d.amount, ?_⟩
      rw [creditNative, ← hsame, PartialMap.insert_self, hload]
      rfl
    · refine ⟨account.lamports, ?_⟩
      rw [creditNative, PartialMap.insert_of_ne _ _ hsame, haccount]
  · rw [creditDeposit, hwrapped] at hcredit
    obtain ⟨hmint, htoken⟩ := (creditWrappedSpl_isSome _ _ _ _ _).mp
      (Option.isSome_of_eq_some hcredit)
    have hneMint : k ≠ wrappedMint P d := by
      rintro rfl
      exact absurd (hmint _ hlength) (Nat.not_le.mpr hshort)
    have hneToken : k ≠ wrappedAccount P d := by
      rintro rfl
      have htouched : ((Footprint.of store writes).touch (wrappedMint P d) MINT_LEN).lengths
          (wrappedAccount P d) = some account.data.length :=
        (PartialMap.insert_of_ne _ _ hneMint).trans hlength
      have := htoken _ htouched
      omega
    refine ⟨account.lamports, ?_⟩
    rw [PartialMap.insert_of_ne _ _ hneToken, PartialMap.insert_of_ne _ _ hneMint, haccount]

theorem receiptWritten_applyDeposit {acc out : AccountWrites × List DepositEvent}
    {d : DepositEvent} (hacc : ∀ d ∈ acc.2, ReceiptWritten P acc.1 d)
    (h : applyDeposit P store gasMint acc d = some out) :
    ∀ d ∈ out.2, ReceiptWritten P out.1 d := by
  rcases applyDeposit_cases h with ⟨-, rfl⟩ | ⟨hnew, writes, hcredit, rfl⟩
  · exact hacc
  · simp only [isCredited, Bool.or_eq_false_iff, Option.isSome_eq_false_iff,
      Option.isNone_iff_eq_none] at hnew
    intro d' hd'
    rcases List.mem_append.mp hd' with hd' | hd'
    · obtain ⟨lamports, hreceipt⟩ := hacc d' hd'
      have hne : depositReceiptAddress P d'.l1Signature ≠
          depositReceiptAddress P d.l1Signature := by
        intro hsame
        rw [hsame, hnew.1] at hreceipt
        cases hreceipt
      obtain ⟨lamports', hkept⟩ := creditDeposit_short hcredit hreceipt (by simp [receiptAccount])
      exact ⟨lamports', (PartialMap.insert_of_ne _ _ hne).trans hkept⟩
    · rw [List.mem_singleton.mp hd']
      exact ⟨0, PartialMap.insert_self ..⟩

theorem receiptWritten_applyDeposits {acc out : AccountWrites × List DepositEvent}
    (hacc : ∀ d ∈ acc.2, ReceiptWritten P acc.1 d)
    (h : deposits.foldlM (applyDeposit P store gasMint) acc = some out) :
    ∀ d ∈ out.2, ReceiptWritten P out.1 d := by
  induction deposits generalizing acc with
  | nil =>
    cases h
    exact hacc
  | cons d deposits ih =>
    rw [List.foldlM_cons, Option.bind_eq_bind, Option.bind_eq_some_iff] at h
    obtain ⟨acc₁, hone, h⟩ := h
    exact ih (receiptWritten_applyDeposit hacc hone) h

/-! ## Balances -/

theorem supplyOf_mintWithSupply {amount : UInt64} {decimals : UInt8} {old : Option StoredAccount}
    {mint : StoredAccount} (h : mintWithSupply amount decimals old = some mint) :
    supplyOf (some mint) = (supplyOf old).saturatingAdd amount := by
  cases old with
  | none =>
    cases h
    simp [supplyOf, UInt64.zero_saturatingAdd]
  | some account =>
    obtain ⟨data, hdata, rfl⟩ := Option.map_eq_some_iff.mp h
    simp [supplyOf, mintSupply_set hdata]

theorem supplyOf_tokenWithAmount {wmint recipient : Pubkey} {amount : UInt64}
    {account token : StoredAccount}
    (h : tokenWithAmount wmint recipient amount (some account) = some token) :
    supplyOf (some token) = supplyOf (some account) := by
  obtain ⟨data, hdata, rfl⟩ := Option.map_eq_some_iff.mp h
  simp [supplyOf, mintSupply_setTokenAccountAmount hdata]

theorem credit_creditDeposit {d : DepositEvent} {writes' : AccountWrites}
    (h : creditDeposit P store gasMint writes d = some writes') :
    Credit P store gasMint writes d writes' := by
  have hbalance := balanceOf_creditDeposit h
  rw [creditedBalance] at hbalance
  rcases creditDeposit_cases h with ⟨hnative, rfl⟩ | ⟨hwrapped, mint, token, hmint, htoken, rfl⟩
  · rw [if_pos hnative] at hbalance
    refine ⟨fun _ => hbalance, fun h => ?_, fun h => ?_, fun k hk => ?_⟩
    · cases hnative.symm.trans h
    · cases hnative.symm.trans h
    · rw [if_pos hnative] at hk
      exact PartialMap.insert_of_ne _ _ hk
  · rw [if_neg (by simp [hwrapped])] at hbalance
    refine ⟨fun h => ?_, fun _ => ?_, fun _ => hbalance, fun k hk => ?_⟩
    · cases hwrapped.symm.trans h
    · rw [← supplyOf_mintWithSupply hmint, loadThrough_insert]
      split
      · rename_i hsame
        -- the token account is the mint just written, whose supply the token write leaves
        rw [loadThrough_insert, if_pos hsame.symm] at htoken
        exact supplyOf_tokenWithAmount htoken
      · rw [loadThrough_insert, if_pos rfl]
    · rw [if_neg (by simp [hwrapped])] at hk
      rw [PartialMap.insert_of_ne _ _ hk.2, PartialMap.insert_of_ne _ _ hk.1]

theorem creditedInTurn_applyDeposits {acc out : AccountWrites × List DepositEvent}
    (h : deposits.foldlM (applyDeposit P store gasMint) acc = some out) :
    ∃ credited, out.2 = acc.2 ++ credited ∧
      CreditedInTurn P store gasMint acc.1 credited out.1 := by
  induction deposits generalizing acc with
  | nil =>
    cases h
    exact ⟨[], (List.append_nil _).symm, .nil _⟩
  | cons d deposits ih =>
    rw [List.foldlM_cons, Option.bind_eq_bind, Option.bind_eq_some_iff] at h
    obtain ⟨acc₁, hone, h⟩ := h
    obtain ⟨credited, hout, hturn⟩ := ih h
    rcases applyDeposit_cases hone with ⟨-, rfl⟩ | ⟨-, credited₁, hcredit, rfl⟩
    · exact ⟨credited, hout, hturn⟩
    · exact ⟨d :: credited, hout.trans (List.append_assoc ..),
        .cons (credit_creditDeposit hcredit) hturn⟩

/-! ## New signatures -/

theorem signature_mem_newDeposits {seen : List String} {d : DepositEvent} (hd : d ∈ deposits)
    (hseen : d.l1Signature ∉ seen)
    (hnone : store.getAccount (depositReceiptAddress P d.l1Signature) = none) :
    d.l1Signature ∈ (newDeposits P store seen deposits).map (·.l1Signature) := by
  induction deposits generalizing seen with
  | nil => cases hd
  | cons d' deposits ih =>
    rw [newDeposits]
    split
    · rename_i hold
      rcases List.mem_cons.mp hd with rfl | hd
      · rw [hnone] at hold
        exact absurd hold (by simpa using hseen)
      · exact ih hd hseen
    · by_cases hsame : d.l1Signature = d'.l1Signature
      · rw [hsame]
        exact List.mem_cons_self
      · rcases List.mem_cons.mp hd with rfl | hd
        · exact absurd rfl hsame
        · refine List.mem_cons_of_mem _ (ih hd ?_)
          rw [List.mem_cons, not_or]
          exact ⟨hsame, hseen⟩

/-! ## The loop -/

theorem applyDeposit_of_taken {d : DepositEvent}
    (h : depositReceiptAddress P d.l1Signature ∈ (Footprint.of store writes).taken) :
    applyDeposit P store gasMint (writes, done) d = some (writes, done) := by
  have hold : isCredited P store writes d = true := by simpa [isCredited, Footprint.of] using h
  rw [applyDeposit, hold, if_pos rfl]

theorem taken_credit {f : Footprint} {d : DepositEvent} {k : Pubkey} (h : k ∈ f.taken) :
    k ∈ (f.credit P gasMint d).taken := by
  unfold Footprint.credit
  refine Set.mem_insert_of_mem _ ?_
  split
  · exact Set.mem_insert_of_mem _ h
  · exact Set.mem_insert_of_mem _ (Set.mem_insert_of_mem _ h)

theorem taken_signatures {f : Footprint} {d : DepositEvent} {seen : List String}
    (h : ∀ sig ∈ seen, depositReceiptAddress P sig ∈ f.taken) :
    ∀ sig ∈ d.l1Signature :: seen,
      depositReceiptAddress P sig ∈ (f.credit P gasMint d).taken := by
  rintro sig hsig
  rcases List.mem_cons.mp hsig with rfl | hsig
  · exact Set.mem_insert _ _
  · exact taken_credit (h sig hsig)

theorem not_credited_of_taken {sig : String} {credited : List DepositEvent}
    {writes' : AccountWrites}
    (htaken : depositReceiptAddress P sig ∈ (Footprint.of store writes).taken)
    (h : deposits.foldlM (applyDeposit P store gasMint) (writes, done) =
      some (writes', done ++ credited)) :
    sig ∉ credited.map (·.l1Signature) := by
  induction deposits generalizing writes done credited with
  | nil =>
    cases credited with
    | nil => exact List.not_mem_nil
    | cons d credited =>
      have hlength := congrArg (fun o => o.map (·.2.length)) h
      simp at hlength
  | cons d deposits ih =>
    rw [List.foldlM_cons, Option.bind_eq_bind, Option.bind_eq_some_iff] at h
    obtain ⟨acc₁, hone, h⟩ := h
    by_cases hadmits : (Footprint.of store writes).Admits P gasMint d
    · obtain ⟨writes₁, hone', hfoot⟩ := applyDeposit_of_admits done hadmits
      obtain rfl := Option.some.inj (hone.symm.trans hone')
      obtain ⟨l, -, hl⟩ := applyDeposits_sublist h
      have hcredited : credited = d :: l :=
        List.append_cancel_left (hl.trans (List.append_assoc ..))
      subst hcredited
      have htail := @ih _ (done ++ [d]) l (by rw [hfoot]; exact taken_credit htaken) (by
        rw [List.append_assoc, List.singleton_append]
        exact h)
      rw [List.map_cons, List.mem_cons, not_or]
      refine ⟨?_, htail⟩
      rintro rfl
      exact hadmits.1 htaken
    · rw [applyDeposit_of_not_admits hadmits hone] at h
      exact ih htaken h

theorem applyDeposits_of_creditable {seen : List String}
    (hseen : ∀ sig ∈ seen, depositReceiptAddress P sig ∈ (Footprint.of store writes).taken)
    (h : (Footprint.of store writes).Creditable P gasMint (newDeposits P store seen deposits)) :
    ∃ writes', deposits.foldlM (applyDeposit P store gasMint) (writes, done) =
      some (writes', done ++ newDeposits P store seen deposits) := by
  induction deposits generalizing seen writes done with
  | nil => exact ⟨writes, by simp [newDeposits]⟩
  | cons d deposits ih =>
    rw [List.foldlM_cons]
    rw [newDeposits] at h ⊢
    split at h
    · rename_i hold
      have htaken : depositReceiptAddress P d.l1Signature ∈ (Footprint.of store writes).taken := by
        rcases hold with hold | hold
        · exact hseen _ hold
        · simp [Footprint.of, hold]
      rw [applyDeposit_of_taken htaken, if_pos hold]
      exact ih hseen h
    · rename_i hnew
      obtain ⟨hadmits, hrest⟩ := h
      obtain ⟨writes₁, hone, hfoot⟩ := applyDeposit_of_admits done hadmits
      rw [hone, if_neg hnew]
      have hseen' : ∀ sig ∈ d.l1Signature :: seen,
          depositReceiptAddress P sig ∈ (Footprint.of store writes₁).taken := by
        rw [hfoot]
        exact taken_signatures hseen
      obtain ⟨writes', hall⟩ := @ih writes₁ (done ++ [d]) _ hseen' (by rw [hfoot]; exact hrest)
      refine ⟨writes', ?_⟩
      rw [List.append_assoc, List.singleton_append] at hall
      exact hall

theorem creditable_of_credited {seen : List String} {credited : List DepositEvent}
    {writes' : AccountWrites}
    (hseen : ∀ sig ∈ seen, depositReceiptAddress P sig ∈ (Footprint.of store writes).taken)
    (h : deposits.foldlM (applyDeposit P store gasMint) (writes, done) =
      some (writes', done ++ credited))
    (hall : ∀ d ∈ deposits, d.l1Signature ∉ seen →
      store.getAccount (depositReceiptAddress P d.l1Signature) = none →
      d.l1Signature ∈ credited.map (·.l1Signature)) :
    (Footprint.of store writes).Creditable P gasMint (newDeposits P store seen deposits) := by
  induction deposits generalizing seen writes done credited with
  | nil => exact trivial
  | cons d deposits ih =>
    rw [List.foldlM_cons, Option.bind_eq_bind, Option.bind_eq_some_iff] at h
    obtain ⟨acc₁, hone, h⟩ := h
    rw [newDeposits]
    split
    · rename_i hold
      have htaken : depositReceiptAddress P d.l1Signature ∈ (Footprint.of store writes).taken := by
        rcases hold with hold | hold
        · exact hseen _ hold
        · simp [Footprint.of, hold]
      obtain rfl := Option.some.inj (hone.symm.trans (applyDeposit_of_taken htaken))
      exact ih hseen h fun d' hd' => hall d' (List.mem_cons_of_mem _ hd')
    · rename_i hnew
      rw [not_or, Option.not_isSome_iff_eq_none] at hnew
      have hcredited := hall d List.mem_cons_self hnew.1 hnew.2
      by_cases hadmits : (Footprint.of store writes).Admits P gasMint d
      · obtain ⟨writes₁, hone', hfoot⟩ := applyDeposit_of_admits done hadmits
        obtain rfl := Option.some.inj (hone.symm.trans hone')
        obtain ⟨l, -, hl⟩ := applyDeposits_sublist h
        obtain rfl : credited = d :: l :=
          List.append_cancel_left (hl.trans (List.append_assoc ..))
        refine ⟨hadmits, ?_⟩
        rw [← hfoot]
        refine @ih writes₁ (done ++ [d]) _ l ?_ ?_ ?_
        · rw [hfoot]
          exact taken_signatures hseen
        · rw [List.append_assoc, List.singleton_append]
          exact h
        · intro d' hd' hseen' hnone
          rw [List.mem_cons, not_or] at hseen'
          rcases List.mem_cons.mp (hall d' (List.mem_cons_of_mem _ hd') hseen'.2 hnone) with
            hsame | hmem
          · exact absurd hsame hseen'.1
          · exact hmem
      · -- a new signature that is passed over has its address taken, and stays passed over
        have hskip := applyDeposit_of_not_admits hadmits hone
        have htaken : depositReceiptAddress P d.l1Signature ∈
            (Footprint.of store writes).taken := by
          rcases applyDeposit_cases hone with ⟨hold, -⟩ | ⟨-, writes₁, -, hout⟩
          · simpa [isCredited, Footprint.of] using hold
          · have hlength := congrArg (·.2.length) (hout.symm.trans hskip)
            simp at hlength
        rw [hskip] at h
        exact absurd hcredited (not_credited_of_taken htaken h)

/-- Whatever the block wrote before, a run of the loop credits each signature of the list at
most once, none with a committed receipt, leaves their receipts and adds their amounts. -/
theorem applyDeposits_credited {writes' : AccountWrites} {credited : List DepositEvent}
    (h : applyDeposits P store gasMint deposits writes = some (writes', credited)) :
    credited.Sublist deposits ∧ (credited.map (·.l1Signature)).Nodup ∧
      (∀ d ∈ credited, store.getAccount (depositReceiptAddress P d.l1Signature) = none) ∧
      (∀ d ∈ credited, ReceiptWritten P writes' d) ∧
      CreditedInTurn P store gasMint writes credited writes' := by
  obtain ⟨l, hl, hout⟩ := applyDeposits_sublist h
  obtain rfl : credited = l := hout
  have hnone : Credited P store (writes, []) :=
    ⟨List.forall_mem_nil _, List.forall_mem_nil _, List.nodup_nil⟩
  obtain ⟨hcredited, -⟩ := applyDeposits_spec hnone h
  obtain ⟨turn, hturn, heffects⟩ := creditedInTurn_applyDeposits h
  obtain rfl : credited = turn := hturn
  exact ⟨hl, hcredited.nodup, hcredited.fresh,
    receiptWritten_applyDeposits (List.forall_mem_nil _) h, heffects⟩

end Loop

/-- A block credits each new signature of its deposits once, by its amount, exactly if, deposit by
deposit, the receipt's address is still free and the token buffers are long enough. -/
theorem credits_each_once_iff (P : Prims) (store : Store) (gasMint : Option Pubkey)
    (deposits : List DepositEvent) (writes : AccountWrites) :
    (∃ writes' credited, applyDeposits P store gasMint deposits writes = some (writes', credited) ∧
        CreditsEachOnce P store gasMint deposits writes writes' credited) ↔
      (Footprint.of store writes).Creditable P gasMint (newDeposits P store [] deposits) := by
  constructor
  · rintro ⟨writes', credited, happly, honce⟩
    refine creditable_of_credited (List.forall_mem_nil _) happly fun d hd _ hnone => ?_
    exact List.one_le_count_iff.mp (honce.once d hd hnone).ge
  · intro hcreditable
    obtain ⟨writes', happly⟩ := @applyDeposits_of_creditable P store gasMint deposits writes [] []
      (List.forall_mem_nil _) hcreditable
    rw [List.nil_append] at happly
    obtain ⟨hlisted, hnodup, hnew, hreceipts, heffects⟩ := applyDeposits_credited happly
    refine ⟨writes', _, happly, hlisted, ?_, ?_, hreceipts, heffects⟩
    · intro d hd hnone
      exact List.count_eq_one_of_mem hnodup
        (signature_mem_newDeposits hd List.not_mem_nil hnone)
    · intro d _ hcommitted hmem
      obtain ⟨d', hd', hsame⟩ := List.mem_map.mp hmem
      rw [← hsame, hnew d' hd'] at hcommitted
      cases hcommitted

/-- Any entry of the block's writes at the address of its receipt, a deletion too, keeps a
deposit from being credited. -/
theorem written_receipt_drops_deposit :
    Store.empty.getAccount Sample.receipt = none ∧ ∀ entry : Option StoredAccount,
      applyDeposits Sample.prims Store.empty none [Sample.deposit]
          (PartialMap.insert (fun _ => none) Sample.receipt entry) =
        some (PartialMap.insert (fun _ => none) Sample.receipt entry, []) ∧
      ¬ CreditsEachOnce Sample.prims Store.empty none [Sample.deposit]
        (PartialMap.insert (fun _ => none) Sample.receipt entry)
        (PartialMap.insert (fun _ => none) Sample.receipt entry) [] := by
  refine ⟨rfl, fun entry => ⟨?_, fun honce => ?_⟩⟩
  · have htaken : depositReceiptAddress Sample.prims Sample.deposit.l1Signature ∈
        (Footprint.of Store.empty
          (PartialMap.insert (fun _ => none) Sample.receipt entry)).taken := by
      simp [Footprint.of, Sample.receipt]
    rw [applyDeposits, List.foldlM_cons, applyDeposit_of_taken htaken]
    rfl
  · have hcount := honce.once Sample.deposit List.mem_cons_self rfl
    cases hcount

end Zul.Node
