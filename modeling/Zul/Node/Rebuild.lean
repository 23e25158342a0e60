import Zul.Node.Chain
import Zul.Node.Claimable

/-! # The rebuilt withdrawals tree

A running node inserts the leaves its withdrawal loop accepted. A new process reads the committed
blocks again, finds the withdrawals by their layout and keeps those whose recorded status is a
success. Both see the same withdrawals in the same order as long as no signature was included
twice, since a status is looked up by signature.
-/

namespace Zul.Node

open Bridge Executor Privacy

variable {E : Env}

theorem applyWithdraws_recorded {P : Prims} {store : Store} {gasMint : Option Pubkey}
    {feeCollector : Pubkey} {withdraws : List WithdrawTx} {acc out : Withdrawn}
    (h : withdraws.foldlM (applyWithdraw P store gasMint feeCollector) acc = some out) :
    ∃ entries : List (WithdrawTx × ExecutedTransactionMeta), entries.map Prod.fst = withdraws ∧
      out.included = acc.included ++ entries.map (fun e => (e.1.transaction, e.2)) ∧
      out.accepted = acc.accepted ++ (entries.filter fun e => isOk e.2.status).map Prod.fst := by
  induction withdraws generalizing acc with
  | nil =>
    cases h
    exact ⟨[], rfl, by simp, by simp⟩
  | cons w withdraws ih =>
    rw [List.foldlM_cons, Option.bind_eq_bind, Option.bind_eq_some_iff] at h
    obtain ⟨acc₁, hone, h⟩ := h
    obtain ⟨entries, hfst, hincluded, haccepted⟩ := ih h
    simp only [applyWithdraw, Option.bind_eq_bind, Option.bind_eq_some_iff] at hone
    obtain ⟨⟨writes, post⟩, -, hone⟩ := hone
    cases post with
    | none =>
      cases hone
      exact ⟨(w, _) :: entries, by simp [hfst], by simp [hincluded]; rfl,
        by simp [haccepted, isOk, poolMeta]⟩
    | some post =>
      cases hone
      exact ⟨(w, _) :: entries, by simp [hfst], by simp [hincluded]; rfl,
        by simp [haccepted, isOk, poolMeta]⟩

/-- The withdrawals a draft includes are found again in its transactions, each with the status
that decided whether it was accepted. -/
theorem draftBlock_withdrawals {choice : BlockChoice} {store : Store} {tip : ChainTip}
    {transactions : List VersionedTransaction} {deposits : List DepositEvent} {draft : BlockDraft}
    (h : draftBlock E choice store tip transactions deposits = .ok draft) :
    ∃ entries : List (WithdrawTx × ExecutedTransactionMeta),
      (partitionWithdraws (draft.included.map Prod.fst)).1 = entries.map Prod.fst ∧
      (∀ e ∈ entries, (e.1.transaction, e.2) ∈ draft.included) ∧
      draft.accepted = (entries.filter fun e => isOk e.2.status).map Prod.fst := by
  obtain ⟨output, pool, writes, withdrawn, hd⟩ := draftBlock_spec h
  obtain ⟨entries, hfst, hincluded, haccepted⟩ := applyWithdraws_recorded hd.withdrew
  obtain ⟨hregular, -⟩ := executeBlock_included hd.executed
  -- what is not split off as a withdrawal does not parse as one
  have hrest : ∀ tx ∈ (partitionWithdraws transactions).2, parseWithdraw tx = none := by
    intro tx htx
    simpa using (List.mem_filter.mp htx).2
  have hnone : ∀ txs : List VersionedTransaction, txs ⊆ (partitionWithdraws transactions).2 →
      txs.filterMap parseWithdraw = [] := by
    intro txs hsub
    rw [List.filterMap_eq_nil_iff]
    exact fun tx htx => hrest tx (hsub htx)
  have hself : (entries.map fun e => e.1.transaction).filterMap parseWithdraw =
      entries.map Prod.fst := by
    have hparse : ∀ w ∈ (partitionWithdraws transactions).1,
        parseWithdraw w.transaction = some w := by
      intro w hw
      obtain ⟨tx, -, htx⟩ := List.mem_filterMap.mp hw
      rw [parseWithdraw_transaction htx, htx]
    rw [List.filterMap_map, ← List.filterMap_eq_map]
    refine List.filterMap_congr fun e he => hparse e.1 ?_
    rw [← hfst]
    exact List.mem_map_of_mem he
  refine ⟨entries, ?_, fun e he => ?_, ?_⟩
  · have hmap : draft.included.map Prod.fst =
        output.included.map Prod.fst ++
          (partition (partitionWithdraws transactions).2).1.map (·.transaction) ++
          entries.map fun e => e.1.transaction := by
      rw [hd.included, hincluded, List.map_append, poolStage_included hd.pooled, List.map_map]
      rfl
    rw [partitionWithdraws, hmap]
    dsimp only
    rw [List.filterMap_append, List.filterMap_append, hself, hnone, hnone]
    · rfl
    · intro tx htx
      obtain ⟨pt, hpt, rfl⟩ := List.mem_map.mp htx
      obtain ⟨tx, htx, hparse⟩ := List.mem_filterMap.mp hpt
      rw [tryParsePoolTx_transaction hparse]
      exact htx
    · intro tx htx
      exact (List.mem_filter.mp (hregular.subset htx)).1
  · rw [hd.included, hincluded]
    exact List.mem_append_right _ (List.mem_map_of_mem he)
  · rw [hd.accepted, haccepted]
    rfl

/-! ## Committed blocks -/

/-- The committed blocks in slot order, as a new process reads them. -/
def committedBlocks (store : Store) : List Block :=
  (store.blockSlotsInRange 1 (store.latestSlot.getD 0) (2 ^ 64 - 1)).filterMap store.getBlock

def committedSignatures (store : Store) : List (Option Signature) :=
  (committedBlocks store).flatMap fun block => block.transactions.map (·.signature)

theorem blockSlotsInRange_of_chain {store : Store} {n : ℕ} (h : ChainUpTo E store n) :
    store.blockSlotsInRange 1 (store.latestSlot.getD 0) (2 ^ 64 - 1) =
      (List.range' 1 n).map UInt64.ofNat := by
  have hn := h.lt
  have hlatest : (store.latestSlot.getD 0).toNat = n := by
    rw [h.latestSlot]
    split
    · rename_i hzero
      rw [hzero]
      rfl
    · exact UInt64.toNat_ofNat_of_lt' hn
  have hall : ∀ slot ∈ (List.range' 1 n).map UInt64.ofNat, (store.blocks slot).isSome := by
    intro slot hslot
    obtain ⟨k, hk, rfl⟩ := List.mem_map.mp hslot
    rw [List.mem_range'_1] at hk
    refine (h.isSome_iff _).mpr ?_
    rw [UInt64.toNat_ofNat_of_lt' (show k < 2 ^ 64 by omega)]
    omega
  rw [Store.blockSlotsInRange, hlatest, show (1 : UInt64).toNat = 1 from rfl, Nat.add_sub_cancel,
    List.filter_eq_self.mpr hall, List.take_of_length_le]
  rw [List.length_map, List.length_range']
  omega

theorem committedBlocks_of_chain {store : Store} {n : ℕ} (h : ChainUpTo E store n) :
    committedBlocks store =
      (List.range' 1 n).filterMap fun slot => store.getBlock (UInt64.ofNat slot) := by
  rw [committedBlocks, blockSlotsInRange_of_chain h, List.filterMap_map]
  rfl

theorem committedBlocks_commit {store store' : Store} {n : ℕ} {tip : ChainTip}
    {choice : BlockChoice} {draft : BlockDraft} (h : ChainUpTo E store n)
    (h' : ChainUpTo E store' (n + 1)) (hslot : tip.slot = UInt64.ofNat n)
    (hcommit : commitOnly E choice store tip draft = .ok store') :
    committedBlocks store' = committedBlocks store ++ [sealedBlock E choice store tip draft] := by
  have hlt := h'.lt
  have hnew : tip.slot + 1 = UInt64.ofNat (n + 1) := by
    rw [hslot, UInt64.ofNat_add]
    rfl
  rw [committedBlocks_of_chain h, committedBlocks_of_chain h', List.range'_1_concat,
    List.filterMap_append, getBlock_commit hcommit, hnew]
  congr 1
  · refine List.filterMap_congr fun slot hmem => ?_
    rw [List.mem_range'_1] at hmem
    exact PartialMap.insert_of_ne _ _ (ofNat_ne_ofNat (by omega) hlt (by omega))
  · rw [Nat.add_comm 1 n]
    simp

/-! ## Recorded statuses -/

/-- A signature leads to metadata and to an existing position in a committed block. -/
def Found (store : Store) (sig : Signature) (txMeta : ExecutedTransactionMeta) : Prop :=
  ∃ loc block, store.txLoc sig = some loc ∧ store.txMeta sig = some txMeta ∧
    store.getBlock loc.slot = some block ∧ loc.index.toNat < block.transactions.length

def Recorded (store : Store) : Prop :=
  ∀ slot block, store.getBlock slot = some block → ∀ tx ∈ block.transactions,
    ∀ sig, tx.signature = some sig → ∃ txMeta, Found store sig txMeta

theorem Found.withdrawalSucceeded {store : Store} {sig : Signature}
    {txMeta : ExecutedTransactionMeta} (h : Found store sig txMeta) {w : WithdrawTx}
    (hsig : w.transaction.signature = some sig) :
    withdrawalSucceeded store w = isOk txMeta.status := by
  obtain ⟨loc, block, hloc, hmeta, hblock, hindex⟩ := h
  have hget : store.getTransaction sig =
      .ok (some (loc, block.transactions[loc.index.toNat], txMeta)) := by
    rw [Store.getBlock] at hblock
    simp only [Store.getTransaction, hloc, hmeta, hblock, List.getElem?_eq_getElem hindex]
  simp only [Node.withdrawalSucceeded, hsig, hget]

section Commit

variable {store store' : Store} {n : ℕ} {tip : ChainTip} {choice : BlockChoice}
  {draft : BlockDraft}

theorem Found.commit {sig : Signature} {txMeta : ExecutedTransactionMeta}
    (h : Found store sig txMeta) (hchain : ChainUpTo E store n) (hlt : n + 1 < 2 ^ 64)
    (hslot : tip.slot = UInt64.ofNat n) (hcommit : commitOnly E choice store tip draft = .ok store')
    (hfresh : ∀ tx ∈ draft.included.map Prod.fst, tx.signature ≠ some sig) :
    Found store' sig txMeta := by
  obtain ⟨loc, block, hloc, hmeta, hblock, hindex⟩ := h
  obtain ⟨hloc', hmeta'⟩ := (Store.commitBlock_lookup hcommit).1 sig hfresh
  refine ⟨loc, block, hloc'.trans hloc, hmeta'.trans hmeta, ?_, hindex⟩
  have hle := (hchain.isSome_iff loc.slot).mp (by rw [hblock]; rfl)
  rw [getBlock_commit hcommit, PartialMap.insert_of_ne]
  · exact hblock
  · intro heq
    rw [heq, hslot, show (1 : UInt64) = UInt64.ofNat 1 from rfl, ← UInt64.ofNat_add,
      UInt64.toNat_ofNat_of_lt' hlt] at hle
    omega

theorem found_commit (hcommit : commitOnly E choice store tip draft = .ok store')
    (hnodup : ((draft.included.map Prod.fst).map (·.signature)).Nodup)
    {tx : VersionedTransaction} {txMeta : ExecutedTransactionMeta}
    (hmem : (tx, txMeta) ∈ draft.included)
    {sig : Signature} (hsig : tx.signature = some sig) : Found store' sig txMeta := by
  obtain ⟨i, hi⟩ := List.mem_iff_getElem?.mp hmem
  have hzip : (draft.included.map Prod.fst).zip (draft.included.map Prod.snd) = draft.included := by
    rw [List.zip_map']
    simp
  obtain ⟨hloc, hmeta⟩ := (Store.commitBlock_lookup hcommit).2 hnodup i tx txMeta
    (by rw [← hi]; exact congrArg (·[i]?) hzip) sig hsig
  refine ⟨_, sealedBlock E choice store tip draft, hloc, hmeta, ?_, ?_⟩
  · rw [getBlock_commit hcommit]
    exact PartialMap.insert_self ..
  · -- the stored index is a `u32`, and no larger than the position
    have hlen := (List.getElem?_eq_some_iff.mp hi).1
    show (UInt32.ofNat i).toNat < (draft.included.map Prod.fst).length
    rw [List.length_map, UInt32.toNat_ofNat']
    exact (Nat.mod_le _ _).trans_lt hlen

end Commit

/-! ## Rebuilding -/

/-- The withdrawals of a block that a new process takes for successful. -/
def succeededIn (store : Store) (block : Block) : List WithdrawTx :=
  (partitionWithdraws block.transactions).1.filter (withdrawalSucceeded store)

theorem rebuildWithdrawals_eq (P : Prims) (store : Store) :
    rebuildWithdrawals P store = (committedBlocks store).foldl
      (fun tree block => insertLeaves P tree (succeededIn store block)) fun _ => none := rfl

theorem mem_committedBlocks_iff {store : Store} {n : ℕ} (h : ChainUpTo E store n) {block : Block} :
    block ∈ committedBlocks store ↔ ∃ slot, store.getBlock slot = some block := by
  rw [committedBlocks_of_chain h, List.mem_filterMap]
  constructor
  · rintro ⟨slot, -, hslot⟩
    exact ⟨_, hslot⟩
  · rintro ⟨slot, hslot⟩
    have hrange := (h.isSome_iff slot).mp (by rw [hslot]; rfl)
    refine ⟨slot.toNat, ?_, by rw [UInt64.ofNat_toNat, hslot]⟩
    rw [List.mem_range'_1]
    omega

/-- Two stores that record the same status for a block's transactions agree on its successful
withdrawals. -/
theorem succeededIn_congr {store store' : Store} {block : Block}
    (h : ∀ tx ∈ block.transactions, ∀ sig, tx.signature = some sig →
      ∃ txMeta, Found store sig txMeta ∧ Found store' sig txMeta) :
    succeededIn store' block = succeededIn store block := by
  refine List.filter_congr fun w hw => ?_
  obtain ⟨tx, htx, hparse⟩ := List.mem_filterMap.mp hw
  cases hsig : w.transaction.signature with
  | none => simp only [withdrawalSucceeded, hsig]
  | some sig =>
    obtain ⟨txMeta, hfound, hfound'⟩ := h tx htx sig (parseWithdraw_transaction hparse ▸ hsig)
    rw [hfound.withdrawalSucceeded hsig, hfound'.withdrawalSucceeded hsig]

theorem rebuild_commit {store' : Store} {n : ℕ} {choice : BlockChoice} {node : Node}
    {draft : BlockDraft} (hchain : ChainUpTo E node.store n) (hchain' : ChainUpTo E store' (n + 1))
    (hslot : node.tip.slot = UInt64.ofNat n) (hcommits : Commits E choice node draft store')
    (hnodup : (committedSignatures store').Nodup) (hrecorded : Recorded node.store)
    (hlive : rebuildWithdrawals E.prims node.store = node.withdrawals) :
    Recorded store' ∧
      rebuildWithdrawals E.prims store' =
        insertLeaves E.prims node.withdrawals draft.accepted := by
  set block := sealedBlock E choice node.store node.tip draft with hblock
  have hblocks : committedBlocks store' = committedBlocks node.store ++ [block] :=
    committedBlocks_commit hchain hchain' hslot hcommits.committed
  have hsigned := (Store.commitBlock_spec hcommits.committed).signed
  rw [committedSignatures, hblocks, List.flatMap_append, List.flatMap_singleton] at hnodup
  have hdisjoint := List.disjoint_of_nodup_append hnodup
  have hnew : ((draft.included.map Prod.fst).map (·.signature)).Nodup := hnodup.of_append_right
  -- the statuses of earlier blocks stay where they were
  have hkept : ∀ b ∈ committedBlocks node.store, ∀ tx ∈ b.transactions, ∀ sig,
      tx.signature = some sig → ∃ txMeta, Found node.store sig txMeta ∧
        Found store' sig txMeta := by
    intro b hb tx htx sig hsig
    obtain ⟨slot, hgetBlock⟩ := (mem_committedBlocks_iff hchain).mp hb
    obtain ⟨txMeta, hfound⟩ := hrecorded slot b hgetBlock tx htx sig hsig
    refine ⟨txMeta, hfound, hfound.commit hchain hchain'.lt hslot hcommits.committed ?_⟩
    intro tx' htx' hsig'
    refine hdisjoint (List.mem_flatMap.mpr ⟨b, hb, List.mem_map.mpr ⟨tx, htx, hsig⟩⟩) ?_
    exact List.mem_map.mpr ⟨tx', htx', hsig'⟩
  constructor
  · intro slot b hb tx htx sig hsig
    rcases List.mem_append.mp (hblocks ▸ (mem_committedBlocks_iff hchain').mpr ⟨slot, hb⟩) with
      hmem | hmem
    · obtain ⟨txMeta, -, hfound⟩ := hkept b hmem tx htx sig hsig
      exact ⟨txMeta, hfound⟩
    · rw [List.mem_singleton.mp hmem] at htx
      obtain ⟨⟨tx', txMeta⟩, hentry, rfl⟩ := List.mem_map.mp htx
      exact ⟨txMeta, found_commit hcommits.committed hnew hentry hsig⟩
  · obtain ⟨entries, hwithdraws, hentries, haccepted⟩ := draftBlock_withdrawals hcommits.drafted
    have hblock : succeededIn store' block = draft.accepted := by
      rw [succeededIn, show block.transactions = draft.included.map Prod.fst from rfl, hwithdraws,
        haccepted, List.filter_map]
      congr 1
      refine List.filter_congr fun e he => ?_
      have hmem := hentries e he
      obtain ⟨sig, hsig⟩ := Option.isSome_iff_exists.mp
        (hsigned e.1.transaction (List.mem_map.mpr ⟨_, hmem, rfl⟩))
      exact (found_commit hcommits.committed hnew hmem hsig).withdrawalSucceeded hsig
    rw [rebuildWithdrawals_eq, hblocks, List.foldl_append, List.foldl_cons, List.foldl_nil, hblock,
      ← hlive, rebuildWithdrawals_eq]
    congr 1
    refine List.foldl_ext _ _ _ fun tree b hb => ?_
    rw [succeededIn_congr (hkept b hb)]

/-- In every state without a repeated signature the statuses are recorded and the rebuilt tree is
the live one. -/
theorem Lived.rebuilt {life : Life} {drafts : List BlockDraft} (lived : Lived E life drafts)
    (hnodup : (committedSignatures life.store).Nodup) :
    Recorded life.store ∧ rebuildWithdrawals E.prims life.store = life.withdrawals := by
  induction lived with
  | start => exact ⟨fun slot block hb => (by cases hb), rfl⟩
  | @step life life' drafts event lived h ih =>
    cases h.effect with
    | silent up hdrafts store_eq tree tip =>
      subst up
      rw [store_eq] at hnodup ⊢
      rw [tree]
      exact ih hnodup
    | @commit choice node draft store up event_eq hcommits next =>
      subst up event_eq next
      obtain ⟨-, -, hdown⟩ | ⟨hsound, htip⟩ := lived.sound
      · exact absurd rfl (hdown node none)
      · obtain ⟨hsound', -⟩ := hsound.commit (htip node none rfl) (length_included_le hcommits)
          hcommits.committed
        have hslot := (htip node none rfl).slot
        have hnodup : (committedSignatures store).Nodup := hnodup
        have hprev : (committedSignatures node.store).Nodup := by
          rw [committedSignatures, committedBlocks_commit hsound.chain hsound'.chain hslot
            hcommits.committed, List.flatMap_append] at hnodup
          exact hnodup.of_append_left
        obtain ⟨hrecorded, hlive⟩ := ih hprev
        exact rebuild_commit hsound.chain hsound'.chain hslot hcommits hnodup hrecorded hlive
    | @opened store root hdrafts hgenesis store_eq tree tip =>
      have hstore : (committedSignatures store).Nodup →
          Recorded store ∧ rebuildWithdrawals E.prims store = life.withdrawals := by
        intro hnodup
        rcases lived.sound with ⟨hempty, -⟩ | ⟨hsound, -⟩
        · rw [hempty] at hgenesis ih
          cases hgenesis
          exact ⟨fun slot block hb => (by cases hb), (ih .nil).2⟩
        · rw [hsound.initializeGenesis] at hgenesis
          cases hgenesis
          exact ih hnodup
      rw [store_eq] at hnodup ⊢
      obtain ⟨hrecorded, hlive⟩ := hstore hnodup
      refine ⟨hrecorded, ?_⟩
      rcases tree with htree | htree
      · exact hlive.trans htree.symm
      · exact htree.symm

/-- The withdrawals tree a new process rebuilds from the committed blocks is the one the running
node maintained, wherever the last process ended. -/
theorem rebuild_eq_live {life : Life} {drafts : List BlockDraft} (lived : Lived E life drafts)
    (hnodup : (committedSignatures life.store).Nodup) :
    rebuildWithdrawals E.prims life.store = life.withdrawals ∧
      WithdrawSmt.root E.prims (rebuildWithdrawals E.prims life.store) =
        WithdrawSmt.root E.prims life.withdrawals := by
  have heq := (lived.rebuilt hnodup).2
  exact ⟨heq, congrArg (WithdrawSmt.root E.prims) heq⟩

theorem Sample.commits_contested :
    ∃ choice node₀ node draft store,
      LifeStep env (.down Store.empty fun _ => none) .boot (.up node₀ none) ∧
      LifeStep env (.up node₀ none) .enqueue (.up node none) ∧
      Commits env choice node draft store ∧
      draft.included.map Prod.fst = [contestedTx 9 1000] ∧ draft.accepted = [contested 9 1000] ∧
      node.withdrawals = (fun _ => none) ∧
      node.store.withdrawalsRoot = WithdrawSmt.root prims (fun _ => none) ∧
      node.store.latestSlot = none := by
  obtain ⟨order⟩ := Privacy.MapOrder.nonempty
  obtain ⟨node, hboot, haccounts, -, hlatest, -, hmempool, -, hempty⟩ := boot_empty env 0
  have hroot : node.store.withdrawalsRoot = WithdrawSmt.root prims (fun _ => none) := by
    cases hboot
    rfl
  let tx := contestedTx 9 1000
  let node₁ : Node := { node with mempool := (node.mempool.push tx).1, pendingDeposits := [] }
  have hdrained : (drainForBlock env node₁).2 = ([tx], []) := by
    simp only [drainForBlock, node₁, hmempool]
    decide +kernel
  have hpayer : node.store.getAccount payer = some (StoredAccount.newSystem 1000000000) := by
    rw [Store.getAccount, haccounts]
    decide
  have hparse : parseWithdraw tx = some (contested 9 1000) := parseWithdraw_withdrawTx ..
  obtain ⟨draft, hdraft, hincluded, haccepted, -⟩ := draftBlock_withdrawal (E := env)
    ⟨0, order⟩ node.tip hparse (by decide) hpayer (by decide) (by decide) (by decide) (by decide)
  have hsigned : ∀ tx' ∈ draft.included.map Prod.fst, tx'.signature.isSome := by
    rw [hincluded]
    exact fun tx' htx' => List.mem_singleton.mp htx' ▸ rfl
  obtain ⟨store, hstore⟩ := commitOnly_isOk (E := env) ⟨0, order⟩ node.store node.tip draft
    (fun latest h => by cases hlatest.symm.trans h) hsigned
  exact ⟨⟨0, order⟩, node, node₁, draft, store, .boot hboot, .enqueue node _ _ _,
    ⟨by rw [hdrained]; exact hdraft, hstore⟩, hincluded, haccepted, hempty, hroot, hlatest⟩

/-- A process that ends right after committing a withdrawal, before storing the new root. -/
theorem rebuild_eq_live_crash :
    ∃ store withdrawals drafts, Lived Sample.env (.down store withdrawals) drafts ∧
      withdrawals = insertLeaves Sample.env.prims (fun _ => none) [Sample.contested 9 1000] ∧
      rebuildWithdrawals Sample.env.prims store = withdrawals := by
  obtain ⟨choice, node₀, node, draft, store, hboot, henqueue, hcommits, hincluded,
    haccepted, hempty, -, -⟩ := Sample.commits_contested
  have hlived : Lived Sample.env (.up node none) [] := (Lived.start.step hboot).step henqueue
  have hcrash := (hlived.step (.commit hcommits)).step (.stop _ _)
  -- the chain has no block before, so the new block's signature is the only one
  have hnodup : (committedSignatures store).Nodup := by
    obtain ⟨-, -, hdown⟩ | ⟨hsound, htip⟩ := hlived.sound
    · exact absurd rfl (hdown node none)
    · have htip := htip node none rfl
      obtain ⟨hsound', -⟩ := hsound.commit htip (length_included_le hcommits) hcommits.committed
      rw [committedSignatures, committedBlocks_commit hsound.chain hsound'.chain htip.slot
        hcommits.committed, committedBlocks_of_chain hsound.chain]
      show ((draft.included.map Prod.fst).map VersionedTransaction.signature ++ []).Nodup
      rw [hincluded]
      exact List.nodup_singleton _
  refine ⟨store, _, _, hcrash, ?_, (rebuild_eq_live hcrash hnodup).1⟩
  rw [committed, haccepted]
  exact congrArg (insertLeaves Sample.env.prims · _) hempty

end Zul.Node
