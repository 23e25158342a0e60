import Zul.Node.Included
import Zul.Node.Run

/-! # Claimable withdrawals

A withdrawal's leaf stands at the first 32 path bits of its recipient and nonce, and inserting
it overwrites what stood there. A withdrawal stays provable as long as no later one lands on its
position with another leaf; the nonce is the user's choice, so nothing in the block loop
prevents that.
-/

namespace Zul.Node

open Bridge Smt WithdrawSmt

variable {P : Prims}

def WithdrawTx.path (P : Prims) (w : WithdrawTx) : H256 := keyPath P (w.leaf P).1

def WithdrawTx.treeLeaf (P : Prims) (w : WithdrawTx) : H256 := leafHash P (w.leaf P).1 (w.leaf P).2

def SamePosition (P : Prims) (w w' : WithdrawTx) : Prop :=
  ∀ i < WITHDRAW_DEPTH, pathBit (w.path P) i = pathBit (w'.path P) i

/-- No withdrawal of the list overwrites an earlier one with another leaf. -/
def Uncontested (P : Prims) (accepted : List WithdrawTx) : Prop :=
  accepted.Pairwise fun w w' => SamePosition P w w' → w'.treeLeaf P = w.treeLeaf P

/-! ## The tree of a list of withdrawals -/

theorem insertLeaves_singleton (t : PartialMap NodeKey H256) (w : WithdrawTx) :
    insertLeaves P t [w] = WithdrawSmt.apply P t (w.leaf P).1 (w.leaf P).2 := rfl

theorem insertLeaves_append (t : PartialMap NodeKey H256) (l l' : List WithdrawTx) :
    insertLeaves P t (l ++ l') = insertLeaves P (insertLeaves P t l) l' :=
  List.foldl_append ..

theorem consistent_insertLeaves {t : PartialMap NodeKey H256} (ht : (shallow P).Consistent t)
    (accepted : List WithdrawTx) : (shallow P).Consistent (insertLeaves P t accepted) := by
  induction accepted generalizing t with
  | nil => exact ht
  | cons w accepted ih => exact ih (consistent_apply ht _ _)

theorem read_insertLeaf (t : PartialMap NodeKey H256) (w w' : WithdrawTx) :
    (SamePosition P w' w → (shallow P).read (insertLeaves P t [w]) WITHDRAW_DEPTH (w'.path P) =
      w.treeLeaf P) ∧
    (¬ SamePosition P w' w → (shallow P).read (insertLeaves P t [w]) WITHDRAW_DEPTH (w'.path P) =
      (shallow P).read t WITHDRAW_DEPTH (w'.path P)) := by
  rw [insertLeaves_singleton]
  exact ⟨read_apply_of_bits t _ _, read_apply_of_not_bits t _ _⟩

theorem read_insertLeaves {accepted : List WithdrawTx} (h : Uncontested P accepted)
    (t : PartialMap NodeKey H256) {w : WithdrawTx} (hw : w ∈ accepted) :
    (shallow P).read (insertLeaves P t accepted) WITHDRAW_DEPTH (w.path P) = w.treeLeaf P := by
  induction accepted using List.reverseRecOn with
  | nil => cases hw
  | append_singleton l last ih =>
    obtain ⟨hl, -, hcross⟩ := List.pairwise_append.mp h
    rw [insertLeaves_append]
    obtain ⟨hon, hoff⟩ := read_insertLeaf (insertLeaves P t l) last w
    by_cases hsame : SamePosition P w last
    · rw [hon hsame]
      rcases List.mem_append.mp hw with hmem | hmem
      · exact hcross w hmem last (List.mem_singleton_self _) hsame
      · rw [List.mem_singleton.mp hmem]
    · rw [hoff hsame]
      rcases List.mem_append.mp hw with hmem | hmem
      · exact ih hl hmem
      · rw [List.mem_singleton.mp hmem] at hsame
        exact absurd (fun _ _ => rfl) hsame

theorem computeWithdrawalProof_isOk {t : PartialMap NodeKey H256} (ht : (shallow P).Consistent t)
    {w : WithdrawTx} (hread : (shallow P).read t WITHDRAW_DEPTH (w.path P) = w.treeLeaf P) :
    isOk (computeWithdrawalProof P t w.recipient w.assetId w.amount w.nonce) = true := by
  have hok : WithdrawSmt.verify P (WithdrawSmt.root P t) (withdrawalPubkey P w.recipient w.nonce)
      (withdrawalAccountHash P w.recipient w.assetId w.amount w.nonce)
      (WithdrawSmt.prove P t (withdrawalPubkey P w.recipient w.nonce)) = true :=
    WithdrawSmt.verify_prove ht hread
  simp only [computeWithdrawalProof, hok, if_true, isOk]

/-! ## Runs -/

def acceptedWithdrawals (drafts : List BlockDraft) : List WithdrawTx :=
  drafts.flatMap (·.accepted)

/-- The node keeps running, and no withdrawal the block accepts overwrites an earlier one with
another leaf. -/
def KeepsPositions (E : Env) (s : RunState) (drafts : List BlockDraft) : Action → Prop
  | .commit choice => ∀ transactions deposits draft, s.inFlight = some (transactions, deposits) →
      draftBlock E choice s.node.store s.node.tip transactions deposits = .ok draft →
      Uncontested E.prims (acceptedWithdrawals drafts ++ draft.accepted)
  | .restart _ => False
  | _ => True

variable {E : Env}

theorem withdrawals_eq_insertLeaves {s : RunState} {drafts : List BlockDraft}
    (hist : History E (KeepsPositions E) s drafts) :
    s.node.withdrawals = insertLeaves E.prims (fun _ => none) (acceptedWithdrawals drafts) ∧
      Uncontested E.prims (acceptedWithdrawals drafts) := by
  induction hist with
  | initial h =>
    obtain ⟨nowMs, node, hboot, rfl⟩ := h
    obtain ⟨node', hboot', -, -, -, -, -, -, hempty⟩ := boot_empty E nowMs
    rw [hboot] at hboot'
    cases hboot'
    exact ⟨hempty, List.Pairwise.nil⟩
  | commit _ ha hflight _ hdraft hcommit ih =>
    obtain ⟨block, store, hp⟩ := commitDraft_spec hcommit
    rw [acceptedWithdrawals, List.flatMap_append, List.flatMap_singleton]
    refine ⟨?_, ha _ _ _ hflight hdraft⟩
    rw [insertLeaves_append, ← acceptedWithdrawals, ← ih.1]
    exact hp.withdrawals
  | step _ ha hother hstep ih =>
    cases hstep with
    | commit _ _ _ => exact absurd rfl (hother _)
    | restart _ => exact ha.elim
    | _ => exact ih

/-! ## Withdrawals of the sample chain -/

theorem History.withdraw {allowed : RunState → List BlockDraft → Action → Prop} {s : RunState}
    {drafts : List BlockDraft} {tx : VersionedTransaction} {w : WithdrawTx}
    {account : StoredAccount} {sig : Signature} (choice : BlockChoice)
    (hist : History E allowed s drafts)
    (hother : ∀ s, allowed s drafts (.admitTx tx) ∧ allowed s drafts (.push tx) ∧
      allowed s drafts .drain)
    (hcommit : ∀ s draft, s.inFlight = some ([tx], []) →
      draftBlock E choice s.node.store s.node.tip [tx] [] = .ok draft → draft.accepted = [w] →
      allowed s drafts (.commit choice))
    (hidle : s.inFlight = none) (hadmitted : s.admitted = [])
    (hpending : s.node.pendingDeposits = [])
    (hadmits : admitTx E s.node tx = .ok sig) (hsig : tx.signature = some sig)
    (hdrain : ((s.node.mempool.push tx).1.drain E.options.maxBlockTransactions).2 = [tx])
    (hslot : ∀ latest, s.node.store.latestSlot = some latest → latest < s.node.tip.slot + 1)
    (hw : parseWithdraw tx = some w) (hnative : w.isNative E.options.gasMint = true)
    (haccount : s.node.store.getAccount w.feePayer = some account)
    (hclock : w.feePayer ≠ Executor.CLOCK_ID)
    (hfunds : w.neededNative E.options.gasMint ≤ account.lamports) (hamount : 0 < w.amount)
    (hcollector : w.feePayer ≠ E.feeCollector) :
    ∃ node draft block store, History E allowed ⟨node, [], none⟩ (drafts ++ [draft]) ∧
      draft.accepted = [w] ∧ draft.included.map Prod.fst = [tx] ∧
      draft.writes w.feePayer = some (some
        { account with lamports := account.lamports - w.neededNative E.options.gasMint }) ∧
      Produced E choice { s.node with
        mempool := ((s.node.mempool.push tx).1.drain E.options.maxBlockTransactions).1
        pendingDeposits := [] } node draft block store := by
  let node₂ := pushTransaction s.node tx
  let s₃ : RunState := ⟨(drainForBlock E node₂).1, [], some (drainForBlock E node₂).2⟩
  have h₁ : History E allowed ⟨s.node, [tx], none⟩ drafts := by
    have h := hist.step (hother _).1 (by simp) (.admitTx hadmits)
    rwa [hadmitted, hidle] at h
  have h₂ : History E allowed ⟨node₂, [], none⟩ drafts :=
    h₁.step (hother _).2.1 (by simp) (.push_singleton rfl)
  have h₃ : History E allowed s₃ drafts := h₂.step (hother _).2.2 (by simp) (.drain rfl)
  have hflight : s₃.inFlight = some ([tx], []) := by
    simp only [s₃, node₂, drainForBlock, pushTransaction, hdrain, hpending]
  obtain ⟨draft, hdraft, hincluded, haccepted, hpayer⟩ := draftBlock_withdrawal choice s.node.tip hw
    hnative haccount hclock hfunds hamount hcollector
  obtain ⟨node, block, store, hcommitted, hp⟩ :=
    commitDraft_isOk (E := E) choice s₃.node draft hslot
    (by rw [hincluded]; simp [hsig])
  have h₄ := h₃.commit (hcommit s₃ draft hflight hdraft haccepted) hflight (by simp [isDue]) hdraft
    hcommitted
  exact ⟨node, draft, block, store, h₄, haccepted, hincluded, hpayer, hp⟩

namespace Sample

def contestedTx (sig : UInt8) (amount : UInt64) : VersionedTransaction :=
  withdrawTx sig (Bytes.replicate 32 7) amount 1 (env.genesis.genesisHash prims)

def contested (sig : UInt8) (amount : UInt64) : WithdrawTx :=
  ⟨contestedTx sig amount, payer, Bytes.replicate 32 7, NATIVE_ASSET_ID, amount, 1⟩

theorem admit_contestedTx {node : Node} {sig : UInt8} {amount : UInt64}
    (hloc : node.store.txLoc (Bytes.replicate 64 sig) = none)
    (hvalid : node.tip.queue.isValid (env.genesis.genesisHash prims) = true) :
    admitTx env node (contestedTx sig amount) = .ok (Bytes.replicate 64 sig) := by
  have hfresh := Store.getTransaction_eq_none_iff.mpr hloc
  simp only [admitTx, show (contestedTx sig amount).signature =
      some (Bytes.replicate 64 sig) from rfl,
    show (contestedTx sig amount).message.recentBlockhash = env.genesis.genesisHash prims from rfl,
    hvalid, hfresh, Bool.not_true, Bool.false_eq_true, if_false]
  rfl

theorem withdraw_contested (allowed : RunState → List BlockDraft → Action → Prop)
    (order : Privacy.MapOrder)
    (hother : ∀ s, allowed s [] (.admitTx (contestedTx 9 1000)) ∧
      allowed s [] (.push (contestedTx 9 1000)) ∧ allowed s [] .drain)
    (hcommit : ∀ s draft choice, s.inFlight = some ([contestedTx 9 1000], []) →
      draftBlock env choice s.node.store s.node.tip [contestedTx 9 1000] [] = .ok draft →
      draft.accepted = [contested 9 1000] → allowed s [] (.commit choice)) :
    ∃ node draft, History env allowed ⟨node, [], none⟩ [draft] ∧
      draft.accepted = [contested 9 1000] ∧
      node.withdrawals = insertLeaves prims (fun _ => none) [contested 9 1000] ∧
      node.store.txLoc (Bytes.replicate 64 10) = none ∧
      node.tip.queue.isValid (env.genesis.genesisHash prims) = true ∧
      node.tip.slot = 1 ∧ node.store.latestSlot = some 1 ∧
      node.store.getAccount payer = some (StoredAccount.newSystem (1000000000 - 6000)) ∧
      node.pendingDeposits = [] ∧
      ((node.mempool.push (contestedTx 10 2000)).1.drain env.options.maxBlockTransactions).2 =
        [contestedTx 10 2000] := by
  obtain ⟨node₀, hboot, haccounts, hloc, hlatest, htip, hmem, hdep, hempty⟩ := boot_empty env 0
  have hvalid : node₀.tip.queue.isValid (env.genesis.genesisHash prims) = true := by
    rw [htip]; decide +kernel
  have hpayer : node₀.store.getAccount payer = some (StoredAccount.newSystem 1000000000) := by
    rw [Store.getAccount, haccounts]; decide
  have hist : History env allowed ⟨node₀, [], none⟩ [] := .initial ⟨0, node₀, hboot, rfl⟩
  obtain ⟨node, draft, block, store, hist', haccepted, hincluded, hwrites, hp⟩ :=
    hist.withdraw ⟨0, order⟩ hother (fun s draft => hcommit s draft _) rfl rfl hdep
      (admit_contestedTx (congrFun hloc _) hvalid) rfl (by rw [hmem]; decide +kernel)
      (fun latest h => by cases hlatest.symm.trans h) (parseWithdraw_withdrawTx ..) (by decide)
      hpayer (by decide) (by decide) (by decide) (by decide)
  have hslot : block.header.slot = 1 := hp.slot.trans (by rw [htip]; rfl)
  refine ⟨node, draft, hist', haccepted, ?_, ?_, ?_, ?_, ?_, ?_, hp.pendingDeposits, ?_⟩
  · rw [hp.withdrawals, haccepted]
    exact congrArg (insertLeaves prims · _) hempty
  · rw [hp.store_eq]
    refine (hp.committed.txLoc_eq_none _).mpr ⟨congrFun hloc _, ?_⟩
    rw [hp.transactions, hincluded]
    decide
  · rw [hp.tip_queue]
    exact BlockhashQueue.isValid_register (by rw [htip]; decide) hvalid _ _
  · exact hp.tip_slot.trans (by rw [htip]; rfl)
  · rw [hp.store_eq]
    exact hp.committed.latestSlot.trans (congrArg some hslot)
  · rw [hp.getAccount]
    exact AccountWrites.applyTo_some hwrites _
  · rw [hp.mempool]
    dsimp only
    rw [hmem]
    decide +kernel

end Sample

/-- In every run of blocks in which no accepted withdrawal overwrites an earlier one, the node
serves a proof for every accepted withdrawal, at every later moment. -/
theorem claimable_of_keepsPositions {s : RunState} {drafts : List BlockDraft}
    (hist : History E (KeepsPositions E) s drafts) :
    ∀ w ∈ acceptedWithdrawals drafts,
      isOk (computeWithdrawalProof E.prims s.node.withdrawals w.recipient w.assetId w.amount
        w.nonce) = true := by
  obtain ⟨htree, hfree⟩ := withdrawals_eq_insertLeaves hist
  intro w hw
  rw [htree]
  exact computeWithdrawalProof_isOk (consistent_insertLeaves SparseTree.consistent_empty _)
    (read_insertLeaves hfree _ hw)

/-- The first withdrawal is claimable after its block. -/
theorem contested_claimable :
    ∃ s drafts, ∃ w ∈ acceptedWithdrawals drafts,
      History Sample.env (KeepsPositions Sample.env) s drafts ∧
      isOk (computeWithdrawalProof Sample.env.prims s.node.withdrawals w.recipient
        w.assetId w.amount
        w.nonce) = true := by
  obtain ⟨order⟩ := Privacy.MapOrder.nonempty
  have hcommit : ∀ s draft choice, s.inFlight = some ([Sample.contestedTx 9 1000], []) →
      draftBlock Sample.env choice s.node.store s.node.tip [Sample.contestedTx 9 1000] [] =
        .ok draft →
      draft.accepted = [Sample.contested 9 1000] →
      KeepsPositions Sample.env s [] (.commit choice) := by
    intro s draft choice hflight hdraft haccepted transactions deposits draft' hflight' hdraft'
    cases hflight.symm.trans hflight'
    cases hdraft.symm.trans hdraft'
    rw [haccepted]
    exact List.pairwise_singleton _ _
  obtain ⟨node, draft, hist, haccepted, -⟩ := Sample.withdraw_contested _ order
    (fun _ => ⟨trivial, trivial, trivial⟩) hcommit
  have hmem : Sample.contested 9 1000 ∈ acceptedWithdrawals [draft] := by
    simp [acceptedWithdrawals, haccepted]
  exact ⟨_, _, _, hmem, hist, claimable_of_keepsPositions hist _ hmem⟩

/-- A second withdrawal with the same recipient and nonce takes the first one's place: the first
was burned and can no longer be proved. -/
theorem contested_not_claimable :
    ∃ s drafts, ∃ w ∈ acceptedWithdrawals drafts,
      History Sample.env (fun _ _ _ => True) s drafts ∧
      isOk (computeWithdrawalProof Sample.env.prims s.node.withdrawals w.recipient
        w.assetId w.amount
        w.nonce) = false := by
  obtain ⟨order⟩ := Privacy.MapOrder.nonempty
  obtain ⟨node₁, draft₁, hist₁, haccepted₁, htree₁, hloc, hvalid, hslot, hlatest, hpayer, hdep,
    hdrain⟩ := Sample.withdraw_contested (fun _ _ _ => True) order
      (fun _ => ⟨trivial, trivial, trivial⟩) (fun _ _ _ _ _ _ => trivial)
  obtain ⟨node₂, draft₂, block, store, hist₂, haccepted₂, -, -, hp⟩ :=
    hist₁.withdraw ⟨0, order⟩ (fun _ => ⟨trivial, trivial, trivial⟩) (fun _ _ _ _ _ => trivial) rfl
      rfl hdep (Sample.admit_contestedTx hloc hvalid) rfl hdrain
      (fun latest h => by
        cases hlatest.symm.trans h
        rw [show node₁.tip.slot = 1 from hslot]
        decide) (Sample.parseWithdraw_withdrawTx ..) (by decide) hpayer (by decide) (by decide)
      (by decide) (by decide)
  have htree : node₂.withdrawals = insertLeaves Sample.env.prims (fun _ => none)
      ([Sample.contested 9 1000] ++ [Sample.contested 10 2000]) := by
    rw [insertLeaves_append, hp.withdrawals, haccepted₂]
    exact congrArg (insertLeaves Sample.env.prims · [Sample.contested 10 2000]) htree₁
  refine ⟨_, _, Sample.contested 9 1000, by simp [acceptedWithdrawals, haccepted₁], hist₂, ?_⟩
  dsimp only
  rw [htree]
  decide +kernel

end Zul.Node
