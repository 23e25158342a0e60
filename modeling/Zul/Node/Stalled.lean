import Zul.Node.Buffers
import Zul.Node.Watcher

/-! # A deposit that cannot be credited

The watcher queues every deposit it sees without a receipt, and a block takes the whole queue. A
deposit whose wrapped mint or token account is too short panics the block it is in: what was
queued with it is lost with it, and the next poll queues all of it again. While no transaction
mends the account no deposit at all is credited, whatever else the node does and however often it
restarts.
-/

namespace Zul.Node

open Bridge WrappedSpl

/-! ## What a credit leaves short -/

section Deposits

variable {P : Prims} {store : Store} {gasMint : Option Pubkey} {writes writes' : AccountWrites}
  {acc out : AccountWrites × List DepositEvent} {d e : DepositEvent} {n : ℕ} {k : Pubkey}

theorem not_atLeast_iff {account : Option StoredAccount} :
    ¬ AtLeast n account ↔ ∃ a, account = some a ∧ a.data.length < n := by
  simp [AtLeast]

/-- A write leaves a short account short if what it writes is short, or as long as what it
replaces. -/
theorem short_insert {j : Pubkey} {account : StoredAccount}
    (hkeeps : ∀ a, loadThrough store writes j = some a →
      account.data.length < n ∨ account.data.length = a.data.length)
    (hshort : ¬ AtLeast n (loadThrough store writes k)) :
    ¬ AtLeast n (loadThrough store (writes.insert j (some account)) k) := by
  obtain ⟨a, ha, hlength⟩ := not_atLeast_iff.mp hshort
  rw [loadThrough_insert]
  split
  · rename_i hsame
    subst hsame
    rw [atLeast_some]
    rcases hkeeps a ha with hlt | heq <;> omega
  · exact hshort

theorem short_creditMint {l1Mint : Pubkey} {amount : UInt64} {decimals : UInt8}
    (h : creditMint P store l1Mint amount decimals writes = some writes')
    (hshort : ¬ AtLeast n (loadThrough store writes k)) :
    ¬ AtLeast n (loadThrough store writes' k) := by
  obtain ⟨mint, hmint, rfl⟩ := Option.map_eq_some_iff.mp h
  refine short_insert (fun a ha => .inr ?_) hshort
  rw [ha] at hmint
  obtain ⟨data, hdata, rfl⟩ := Option.map_eq_some_iff.mp hmint
  exact length_setMintSupply hdata

theorem short_creditTokenAccount {l1Mint recipient : Pubkey} {amount : UInt64}
    (h : creditTokenAccount P store l1Mint recipient amount writes = some writes')
    (hshort : ¬ AtLeast n (loadThrough store writes k)) :
    ¬ AtLeast n (loadThrough store writes' k) := by
  obtain ⟨token, htoken, rfl⟩ := Option.map_eq_some_iff.mp h
  refine short_insert (fun a ha => .inr ?_) hshort
  rw [ha] at htoken
  obtain ⟨data, hdata, rfl⟩ := Option.map_eq_some_iff.mp htoken
  exact length_setTokenAccountAmount hdata

theorem short_creditDeposit (h : creditDeposit P store gasMint writes e = some writes')
    (hshort : ¬ AtLeast n (loadThrough store writes k)) :
    ¬ AtLeast n (loadThrough store writes' k) := by
  unfold creditDeposit at h
  split at h
  · cases h
    refine short_insert (fun a ha => .inr ?_) hshort
    rw [ha, Option.getD_some]
  · simp only [creditWrappedSpl, Option.bind_eq_bind, Option.bind_eq_some_iff] at h
    obtain ⟨minted, hmint, htoken⟩ := h
    exact short_creditTokenAccount htoken (short_creditMint hmint hshort)

theorem short_applyDeposit (hn : 40 < n) (h : applyDeposit P store gasMint acc e = some out)
    (hshort : ¬ AtLeast n (loadThrough store acc.1 k)) :
    ¬ AtLeast n (loadThrough store out.1 k) := by
  rcases applyDeposit_cases h with ⟨-, rfl⟩ | ⟨-, writes, hcredit, rfl⟩
  · exact hshort
  · refine short_insert (fun _ _ => .inl ?_) (short_creditDeposit hcredit hshort)
    simpa [receiptAccount] using hn

variable (P d) in
def ApartFrom (e : DepositEvent) : Prop :=
  depositReceiptAddress P d.l1Signature ∉
    [depositReceiptAddress P e.l1Signature, e.l2Recipient, wrappedMint P e, wrappedAccount P e]

theorem isCredited_applyDeposit (hapart : ApartFrom P d e)
    (h : applyDeposit P store gasMint acc e = some out) :
    isCredited P store out.1 d = isCredited P store acc.1 d := by
  simp only [ApartFrom, List.mem_cons, List.not_mem_nil, or_false, not_or] at hapart
  obtain ⟨hreceipt, hrecipient, hmint, haccount⟩ := hapart
  rcases applyDeposit_cases h with ⟨-, rfl⟩ | ⟨-, writes, hcredit, rfl⟩
  · rfl
  · rw [isCredited, isCredited]
    dsimp only
    rw [PartialMap.insert_of_ne _ _ hreceipt]
    rcases creditDeposit_cases hcredit with ⟨-, rfl⟩ | ⟨-, mint, token, -, -, rfl⟩
    · rw [creditNative, PartialMap.insert_of_ne _ _ hrecipient]
    · rw [PartialMap.insert_of_ne _ _ haccount, PartialMap.insert_of_ne _ _ hmint]

theorem not_depositFits_applyDeposit (hapart : ApartFrom P d e)
    (h : applyDeposit P store gasMint acc e = some out)
    (hunfit : ¬ DepositFits P store gasMint acc.1 d) :
    ¬ DepositFits P store gasMint out.1 d := by
  intro hfits
  apply hunfit
  intro hnew htokens
  obtain ⟨hmint, haccount⟩ := hfits ((isCredited_applyDeposit hapart h).trans hnew) htokens
  constructor
  · by_contra hshort
    exact short_applyDeposit (by decide) h hshort hmint
  · by_contra hshort
    exact short_applyDeposit (by decide) h hshort haccount

theorem applyDeposits_eq_none {deposits : List DepositEvent}
    (hunfit : ¬ DepositFits P store gasMint acc.1 d) (hmem : d ∈ deposits)
    (hapart : ∀ e ∈ deposits, e = d ∨ ApartFrom P d e) :
    deposits.foldlM (applyDeposit P store gasMint) acc = none := by
  induction deposits generalizing acc with
  | nil => cases hmem
  | cons e deposits ih =>
    rw [List.foldlM_cons, Option.bind_eq_bind, Option.bind_eq_none_iff]
    intro out hone
    rcases hapart e List.mem_cons_self with rfl | happart
    · exact absurd (applyDeposit_isSome.mp (Option.isSome_of_mem hone)) hunfit
    · have hrest : d ∈ deposits := by
        rcases List.mem_cons.mp hmem with rfl | hrest
        · exact absurd (applyDeposit_isSome.mp (Option.isSome_of_mem hone)) hunfit
        · exact hrest
      exact ih (not_depositFits_applyDeposit happart hone hunfit) hrest
        fun e he => hapart e (List.mem_cons_of_mem _ he)

end Deposits

/-! ## Continuations of a run -/

/-- How a run goes on from a state, with the blocks committed since. -/
inductive Continues (E : Env) (allowed : RunState → Action → Prop) (start : RunState) :
    RunState → List BlockDraft → Prop
  | refl : Continues E allowed start start []
  | commit {s : RunState} {drafts : List BlockDraft} {choice : BlockChoice}
      {transactions : List VersionedTransaction} {deposits : List DepositEvent}
      {draft : BlockDraft} {node : Node} (run : Continues E allowed start s drafts)
      (ha : allowed s (.commit choice)) (hflight : s.inFlight = some (transactions, deposits))
      (hdue : isDue E choice.timestampMs s.node transactions deposits = true)
      (hdraft : draftBlock E choice s.node.store s.node.tip transactions deposits = .ok draft)
      (hcommit : commitDraft E choice s.node draft = .ok node) :
      Continues E allowed start { s with node, inFlight := none } (drafts ++ [draft])
  | step {s s' : RunState} {drafts : List BlockDraft} {a : Action}
      (run : Continues E allowed start s drafts) (ha : allowed s a)
      (hother : ∀ choice, a ≠ .commit choice) (hstep : Step E s a s') :
      Continues E allowed start s' drafts

theorem Continues.poll {E : Env} {allowed : RunState → Action → Prop} {start s : RunState}
    {drafts : List BlockDraft} {deposits : List DepositEvent}
    (run : Continues E allowed start s drafts)
    (hallowed : ∀ s, allowed s (.enqueue deposits) ∧ allowed s .drain) (hidle : s.inFlight = none)
    (hpending : s.node.pendingDeposits = []) (hqueue : s.node.mempool.queue = []) :
    Continues E allowed start
      ⟨{ s.node with pendingDeposits := [] }, s.admitted, some ([], deposits)⟩ drafts := by
  have h := (run.step (hallowed _).1 (by simp) (.enqueue deposits)).step (hallowed _).2 (by simp)
    (.drain hidle)
  rwa [drainForBlock_enqueue deposits hqueue hpending] at h

section Stalled

variable (E : Env) (d : DepositEvent)

/-- What the deposits that are queued together are: none, or the one with others apart from its
receipt. -/
def Carries (deposits : List DepositEvent) : Prop :=
  deposits = [] ∨ d ∈ deposits ∧ ∀ e ∈ deposits, e = d ∨ ApartFrom E.prims d e

/-- Deposits are queued by polls that see the deposit and not its receipt, and the transactions of
a block leave it without a receipt and its mint or token account too short. -/
def Stalls (s : RunState) : Action → Prop
  | .enqueue deposits => ∃ known store,
      deposits = freshDeposits E.prims store (fetchDeposits known none) ∧
      d ∈ fetchDeposits known none ∧
      store.getAccount (depositReceiptAddress E.prims d.l1Signature) = none ∧
      ∀ e ∈ deposits, e = d ∨ ApartFrom E.prims d e
  | .commit choice => ∀ transactions deposits output pool,
      s.inFlight = some (transactions, deposits) →
      Executor.executeBlock E.svm E.feeCollector s.node.store (blockInput choice s.node.tip
        (partition (partitionWithdraws transactions).2).2) = .ok output →
      poolStage E choice.order s.node.store (partition (partitionWithdraws transactions).2).1
        output.accountWrites output.included = .ok pool →
      ¬ DepositFits E.prims s.node.store E.options.gasMint pool.writes d
  | _ => True

structure Stalled (s : RunState) : Prop where
  pending : Carries E d s.node.pendingDeposits
  inFlight : ∀ batch, s.inFlight = some batch → Carries E d batch.2

variable {E d}

theorem Carries.append {deposits more : List DepositEvent} (h : Carries E d deposits)
    (hmem : d ∈ more) (hapart : ∀ e ∈ more, e = d ∨ ApartFrom E.prims d e) :
    Carries E d (deposits ++ more) := by
  refine .inr ⟨List.mem_append_right _ hmem, fun e he => ?_⟩
  rcases List.mem_append.mp he with he | he
  · rcases h with rfl | ⟨-, hold⟩
    · cases he
    · exact hold e he
  · exact hapart e he

theorem Carries.eq_nil_of_draftBlock {s : RunState} {choice : BlockChoice}
    {transactions : List VersionedTransaction} {deposits : List DepositEvent} {draft : BlockDraft}
    (h : Carries E d deposits) (hallowed : Stalls E d s (.commit choice))
    (hflight : s.inFlight = some (transactions, deposits))
    (hdraft : draftBlock E choice s.node.store s.node.tip transactions deposits = .ok draft) :
    deposits = [] := by
  obtain ⟨output, pool, depositWrites, withdrawn, hd⟩ := draftBlock_spec hdraft
  rcases h with hnil | ⟨hmem, hapart⟩
  · exact hnil
  · have hunfit := hallowed transactions deposits output pool hflight hd.executed hd.pooled
    have hnone := @applyDeposits_eq_none _ _ _ (pool.writes, []) _ _ hunfit hmem hapart
    cases hnone.symm.trans hd.deposited

theorem Stalled.step {s s' : RunState} {a : Action} (h : Stalled E d s)
    (hallowed : Stalls E d s a) (hother : ∀ choice, a ≠ .commit choice) (hstep : Step E s a s') :
    Stalled E d s' := by
  cases hstep with
  | admitTx _ => exact ⟨h.pending, h.inFlight⟩
  | push _ => exact ⟨h.pending, h.inFlight⟩
  | enqueue deposits =>
    obtain ⟨known, store, rfl, hseen, hnew, hapart⟩ := hallowed
    have hmem : d ∈ freshDeposits E.prims store (fetchDeposits known none) := by
      refine List.mem_filter.mpr ⟨hseen, ?_⟩
      rw [hnew]
      rfl
    exact ⟨h.pending.append hmem hapart, h.inFlight⟩
  | drain _ =>
    refine ⟨.inl rfl, ?_⟩
    rintro batch ⟨⟩
    exact h.pending
  | idle _ _ => exact ⟨h.pending, nofun⟩
  | commit _ _ _ => exact absurd rfl (hother _)
  | fail _ => exact ⟨h.pending, nofun⟩
  | restart hboot => exact ⟨.inl (boot_pendingDeposits hboot), nofun⟩

theorem Continues.stalled {start s : RunState} {drafts : List BlockDraft}
    (run : Continues E (Stalls E d) start s drafts) (hstart : Stalled E d start) :
    Stalled E d s ∧ creditedDeposits drafts = [] := by
  induction run with
  | refl => exact ⟨hstart, rfl⟩
  | commit _ ha hflight _ hdraft hcommit ih =>
    obtain ⟨hstalled, hnone⟩ := ih
    obtain rfl := (hstalled.inFlight _ hflight).eq_nil_of_draftBlock ha hflight hdraft
    obtain ⟨block, store, hp⟩ := commitDraft_spec hcommit
    refine ⟨⟨?_, nofun⟩, ?_⟩
    · rw [hp.pendingDeposits]
      exact hstalled.pending
    · rw [creditedDeposits, List.flatMap_append, List.flatMap_singleton, ← creditedDeposits, hnone,
        List.nil_append]
      exact List.subset_nil.mp (draftBlock_credited_subset hdraft)
  | step _ ha hother hstep ih => exact ⟨ih.1.step ha hother hstep, ih.2⟩

end Stalled

/-- From when a deposit that cannot be credited is in every poll, no deposit is credited, and no
block is produced from a batch of deposits, while nothing writes its receipt or mends its
accounts. -/
theorem unfit_deposit_stalls_bridge {E : Env} {d : DepositEvent} {start s : RunState}
    {drafts : List BlockDraft} (hstart : Stalled E d start)
    (run : Continues E (Stalls E d) start s drafts) :
    creditedDeposits drafts = [] ∧
      ∀ choice transactions deposits, Stalls E d s (.commit choice) →
        s.inFlight = some (transactions, deposits) → deposits ≠ [] →
        ∀ node, produce E choice s.node transactions deposits ≠ .ok node := by
  obtain ⟨hstalled, hnone⟩ := run.stalled hstart
  refine ⟨hnone, fun choice transactions deposits hallowed hflight hne node hproduce => hne ?_⟩
  unfold produce at hproduce
  split at hproduce
  · cases hproduce
  · rename_i draft hdraft
    exact (hstalled.inFlight _ hflight).eq_nil_of_draftBlock hallowed hflight hdraft

namespace Sample

/-- The L1 transaction of the token deposit. -/
def tokenL1Tx : L1Transaction where
  signature := tokenDeposit.l1Signature
  failed := false
  log := [.deposited ⟨Bytes.replicate 32 6, 100, payer, some mint, 6⟩]

theorem fetchDeposits_tokenL1Tx :
    fetchDeposits [tokenL1Tx, depositL1Tx] none = [tokenDeposit, deposit] := by
  have htoken : tokenL1Tx.found = some tokenDeposit := by
    refine L1Transaction.found_eq_some_iff.mpr ⟨rfl, ?_⟩
    rw [depositInTx, tokenL1Tx, List.findSome?_cons]
    simp only [LogEntry.text]
    rw [depositInLine_line]
    rfl
  have hdeposit : depositL1Tx.found = some deposit :=
    L1Transaction.found_eq_some_iff.mpr ⟨rfl, depositInTx_depositL1Tx⟩
  rw [fetchDeposits_none (by decide)]
  show List.filterMap L1Transaction.found [tokenL1Tx, depositL1Tx] = _
  rw [List.filterMap_cons_some htoken, List.filterMap_cons_some hdeposit, List.filterMap_nil]

end Sample

/-- Lamports at the address of a wrapped mint: the deposit of its token takes a deposit of SOL with
it, in the first block and again after the next poll. -/
theorem unfit_deposit_stalls_bridge_funded : ∃ start s before,
    History Sample.env (fun _ _ _ => True) start before ∧
    Continues Sample.env (Stalls Sample.env Sample.tokenDeposit) start s [] ∧
    s.inFlight = some ([], [Sample.tokenDeposit, Sample.deposit]) ∧
    ∀ choice node,
      produce Sample.env choice s.node [] [Sample.tokenDeposit, Sample.deposit] ≠ .ok node := by
  obtain ⟨order⟩ := Privacy.MapOrder.nonempty
  obtain ⟨node₀, hboot, haccounts, -, hlatest, -, hmem, hdep, -⟩ := boot_empty Sample.env 0
  have habsent : node₀.store.getAccount (wrappedMintAddress Sample.prims Sample.mint) = none ∧
      node₀.store.getAccount (depositReceiptAddress Sample.prims "4xFunding") = none ∧
      node₀.store.getAccount (depositReceiptAddress Sample.prims "5xToken") = none ∧
      node₀.store.getAccount (depositReceiptAddress Sample.prims "3xDeposit") = none := by
    simp only [Store.getAccount, haccounts]
    decide +kernel
  have hist₀ : History Sample.env (fun _ _ _ => True) ⟨node₀, [], none⟩ [] :=
    .initial ⟨0, node₀, hboot, rfl⟩
  obtain ⟨node₁, draft, clock, hist₁, hblock, -, -, hfunded, hkept⟩ := hist₀.nativeDeposit
    (d := Sample.mintFunding) order (fun _ => ⟨trivial, trivial, fun _ => trivial⟩) rfl hdep
    (by rw [hmem]; rfl) (fun latest h => by cases hlatest.symm.trans h) rfl (by decide +kernel)
    habsent.2.1
  have hmint := hfunded (by decide +kernel) (by decide +kernel) habsent.1
  have htoken := (hkept (depositReceiptAddress Sample.prims "5xToken") (by decide +kernel)
    (by decide +kernel) (by decide +kernel)).trans habsent.2.2.1
  have hdeposit := (hkept (depositReceiptAddress Sample.prims "3xDeposit") (by decide +kernel)
    (by decide +kernel) (by decide +kernel)).trans habsent.2.2.2
  have hqueue : node₁.mempool.queue = [] := by
    rw [hblock.mempool, hmem]
    rfl
  have hfresh : freshDeposits Sample.prims node₁.store
      (fetchDeposits [Sample.tokenL1Tx, Sample.depositL1Tx] none) =
        [Sample.tokenDeposit, Sample.deposit] := by
    rw [Sample.fetchDeposits_tokenL1Tx, freshDeposits]
    simp only [List.filter_cons, List.filter_nil,
      show depositReceiptAddress Sample.prims Sample.tokenDeposit.l1Signature =
        depositReceiptAddress Sample.prims "5xToken" from rfl,
      show depositReceiptAddress Sample.prims Sample.deposit.l1Signature =
        depositReceiptAddress Sample.prims "3xDeposit" from rfl, htoken, hdeposit]
    rfl
  have hpoll (s : RunState) : Stalls Sample.env Sample.tokenDeposit s
      (.enqueue [Sample.tokenDeposit, Sample.deposit]) := by
    refine ⟨[Sample.tokenL1Tx, Sample.depositL1Tx], node₁.store, hfresh.symm, ?_, htoken, ?_⟩
    · rw [Sample.fetchDeposits_tokenL1Tx]
      exact List.mem_cons_self
    · rintro e he
      rcases List.mem_cons.mp he with rfl | he
      · exact .inl rfl
      · rw [List.mem_singleton.mp he]
        exact .inr (by unfold ApartFrom; decide +kernel)
  -- the batch is drained, lost in a panic, queued and drained again
  have hnil : Continues Sample.env (Stalls Sample.env Sample.tokenDeposit) ⟨node₁, [], none⟩
    ⟨node₁, [], none⟩ [] := .refl
  have hfirst := hnil.poll (fun s => ⟨hpoll s, trivial⟩) rfl hblock.pendingDeposits hqueue
  have hrun := (hfirst.step (a := .fail) trivial (by simp) (.fail rfl)).poll
    (fun s => ⟨hpoll s, trivial⟩) rfl rfl hqueue
  have hstart : Stalled Sample.env Sample.tokenDeposit ⟨node₁, [], none⟩ :=
    ⟨.inl hblock.pendingDeposits, fun batch h => by cases h⟩
  refine ⟨_, _, _, hist₁, hrun, rfl, fun choice node =>
    (unfit_deposit_stalls_bridge hstart hrun).2 choice [] _ ?_ rfl (by simp) node⟩
  intro transactions deposits output pool hflight hexec hpool hfits
  cases hflight
  obtain ⟨writes, hexec', hclock⟩ := Executor.executeBlock_nil Sample.env.svm
    Sample.env.feeCollector node₁.store (node₁.tip.slot + 1) choice.timestampMs
    node₁.tip.blockhash node₁.tip.queue
  cases hexec'.symm.trans hexec
  cases hpool
  have hnew : isCredited Sample.env.prims node₁.store writes Sample.tokenDeposit = false := by
    rw [isCredited, show depositReceiptAddress Sample.env.prims Sample.tokenDeposit.l1Signature =
      depositReceiptAddress Sample.prims "5xToken" from rfl, htoken, hclock _ (by decide +kernel)]
    rfl
  have hlong : AtLeast 44 (loadThrough node₁.store writes
      (wrappedMintAddress Sample.prims Sample.mint)) := (hfits hnew rfl).1
  rw [loadThrough, hclock _ (by decide +kernel)] at hlong
  exact absurd (hlong _ hmint) (by decide)

end Zul.Node
