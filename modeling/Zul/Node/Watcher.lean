import Zul.Bridge.Attribution
import Zul.Node.Receipts

/-! # The deposit watcher

The watcher polls the L1 for deposits and queues those without a receipt. What the node credits
in a run is what the watcher queued, so every credit is backed when the transactions the L1
lists are unforged.
-/

namespace Zul.Node

open Bridge

def freshDeposits (P : Prims) (store : Store) (deposits : List DepositEvent) : List DepositEvent :=
  deposits.filter fun d => (store.getAccount (depositReceiptAddress P d.l1Signature)).isNone

/-- Deposits are queued by the watcher only, from what the L1 history holds at some moment. -/
def Watches (P : Prims) (history : List L1Transaction) (_ : RunState) (_ : List BlockDraft) :
    Action → Prop
  | .enqueue deposits => ∃ known store, known <+: history ∧
      deposits = freshDeposits P store (fetchDeposits known none)
  | _ => True

/-! ## Credits come from the queue -/

theorem applyDeposits_sublist {P : Prims} {store : Store} {gasMint : Option Pubkey}
    {deposits : List DepositEvent} {acc out : AccountWrites × List DepositEvent}
    (h : deposits.foldlM (applyDeposit P store gasMint) acc = some out) :
    ∃ l, l.Sublist deposits ∧ out.2 = acc.2 ++ l := by
  induction deposits generalizing acc with
  | nil =>
    cases h
    exact ⟨[], List.nil_sublist _, (List.append_nil _).symm⟩
  | cons d deposits ih =>
    rw [List.foldlM_cons, Option.bind_eq_bind, Option.bind_eq_some_iff] at h
    obtain ⟨acc₁, hone, h⟩ := h
    obtain ⟨l, hl, hout⟩ := ih h
    rcases applyDeposit_cases hone with ⟨-, rfl⟩ | ⟨-, writes, -, rfl⟩
    · exact ⟨l, hl.cons d, hout⟩
    · exact ⟨d :: l, hl.cons_cons d, by rw [hout, List.append_assoc, List.singleton_append]⟩

theorem draftBlock_credited_subset {E : Env} {choice : BlockChoice} {store : Store} {tip : ChainTip}
    {transactions : List VersionedTransaction} {deposits : List DepositEvent} {draft : BlockDraft}
    (h : draftBlock E choice store tip transactions deposits = .ok draft) :
    draft.credited ⊆ deposits := by
  obtain ⟨output, pool, depositWrites, withdrawn, hd⟩ := draftBlock_spec h
  obtain ⟨l, hl, hout⟩ := applyDeposits_sublist hd.deposited
  rw [show draft.credited = l from hout]
  exact hl.subset

/-! ## Backed credits -/

structure DepositsSatisfy (p : DepositEvent → Prop) (s : RunState) (drafts : List BlockDraft) :
    Prop where
  pending : ∀ d ∈ s.node.pendingDeposits, p d
  inFlight : ∀ batch, s.inFlight = some batch → ∀ d ∈ batch.2, p d
  credited : ∀ d ∈ creditedDeposits drafts, p d

theorem depositsSatisfy_of_enqueued {E : Env} {p : DepositEvent → Prop}
    {allowed : RunState → List BlockDraft → Action → Prop}
    (henqueue : ∀ s drafts deposits, allowed s drafts (.enqueue deposits) → ∀ d ∈ deposits, p d)
    {s : RunState} {drafts : List BlockDraft} (hist : History E allowed s drafts) :
    DepositsSatisfy p s drafts := by
  induction hist with
  | initial h =>
    obtain ⟨nowMs, node, hboot, rfl⟩ := h
    obtain ⟨node', hboot', -, -, -, -, -, hdep, -⟩ := boot_empty E nowMs
    rw [hboot] at hboot'
    cases hboot'
    exact ⟨by simp [hdep], by simp, by simp [creditedDeposits]⟩
  | commit _ _ hflight _ hdraft hcommit ih =>
    obtain ⟨block, store, hp⟩ := commitDraft_spec hcommit
    refine ⟨?_, by simp, ?_⟩
    · rw [hp.pendingDeposits]
      exact ih.pending
    · rw [creditedDeposits, List.flatMap_append, List.flatMap_singleton]
      intro d hd
      rcases List.mem_append.mp hd with hd | hd
      · exact ih.credited d hd
      · exact ih.inFlight _ hflight d (draftBlock_credited_subset hdraft hd)
  | step _ ha hother hstep ih =>
    cases hstep with
    | commit _ _ _ => exact absurd rfl (hother _)
    | enqueue deposits =>
      refine ⟨?_, ih.inFlight, ih.credited⟩
      intro d hd
      rcases List.mem_append.mp hd with hd | hd
      · exact ih.pending d hd
      · exact henqueue _ _ _ ha d hd
    | drain _ =>
      refine ⟨by simp [drainForBlock], ?_, ih.credited⟩
      rintro batch ⟨⟩
      exact ih.pending
    | restart hboot =>
      refine ⟨?_, by simp, ih.credited⟩
      have hpending := boot_pendingDeposits hboot
      simp [hpending]
    | idle _ _ => exact ⟨ih.pending, by simp, ih.credited⟩
    | fail _ => exact ⟨ih.pending, by simp, ih.credited⟩
    | admitTx _ => exact ⟨ih.pending, ih.inFlight, ih.credited⟩
    | push _ => exact ⟨ih.pending, ih.inFlight, ih.credited⟩

theorem backed_of_watches {E : Env} {history : List L1Transaction}
    (hnodup : (history.map (·.signature)).Nodup)
    (hunforged : ∀ tx ∈ history, tx.failed = false → Unforged tx)
    {s : RunState} {drafts : List BlockDraft}
    (hist : History E (Watches E.prims history) s drafts) :
    ∀ d ∈ creditedDeposits drafts, Backed history d := by
  refine (depositsSatisfy_of_enqueued (p := Backed history) ?_ hist).credited
  rintro s drafts deposits ⟨known, store, hknown, rfl⟩ d hd
  have hsub := hknown.sublist
  have hback := (fetchDeposits_backed_iff (hnodup.sublist (hsub.map _)) none).mpr
    fun tx htx hfailed => hunforged tx (hsub.subset (getSignaturesForAddress_subset htx)) hfailed
  obtain ⟨tx, htx, hfailed, hmem⟩ := hback d (List.mem_of_mem_filter hd)
  exact ⟨tx, hsub.subset htx, hfailed, hmem⟩

/-- The client returns, and the node credits, only deposits of the settlement program exactly
when the transactions concerned are unforged. -/
theorem deposits_backed_iff_unforged (history : List L1Transaction)
    (hnodup : (history.map (·.signature)).Nodup) :
    (∀ tx : L1Transaction,
      (∀ event, depositInTx tx.signature tx.log = some event → event ∈ tx.emitted) ↔
        Unforged tx) ∧
    (∀ after : Option String,
      (∀ event ∈ fetchDeposits history after, Backed history event) ↔
        ∀ tx ∈ getSignaturesForAddress history 100 after, tx.failed = false → Unforged tx) ∧
    (∀ (E : Env) (s : RunState) (drafts : List BlockDraft),
      (∀ tx ∈ history, tx.failed = false → Unforged tx) →
      History E (Watches E.prims history) s drafts →
      ∀ d ∈ creditedDeposits drafts, Backed history d) := by
  refine ⟨depositInTx_emitted_iff, fetchDeposits_backed_iff hnodup, ?_⟩
  intro E s drafts hunforged hist
  exact backed_of_watches hnodup hunforged hist

namespace Sample

/-- The L1 transaction of the sample deposit. -/
def depositL1Tx : L1Transaction where
  signature := deposit.l1Signature
  failed := false
  log := [.line (Bytes.replicate 32 5) "Program log: Instruction: DepositSol".toList,
    .deposited ⟨Bytes.replicate 32 6, 500, deposit.l2Recipient, none, 9⟩]

theorem depositInTx_depositL1Tx :
    depositInTx depositL1Tx.signature depositL1Tx.log = some deposit := by
  have hother : depositInLine depositL1Tx.signature "Program log: Instruction: DepositSol".toList =
      none := by decide
  rw [depositInTx, depositL1Tx, List.findSome?_cons]
  simp only [LogEntry.text]
  rw [show depositInLine deposit.l1Signature _ = none from hother, List.findSome?_cons,
    depositInLine_line]
  rfl

theorem unforged_depositL1Tx : Unforged depositL1Tx := by
  rw [← depositInTx_emitted_iff]
  rintro event hfound
  rw [depositInTx_depositL1Tx] at hfound
  cases hfound
  decide

/-- Another program's transaction that logs the payload of a deposit of a million SOL. -/
def forgedL1Tx : L1Transaction where
  signature := "4xForged"
  failed := false
  log := [.line (Bytes.replicate 32 66)
    (Deposited.line ⟨Bytes.replicate 32 6, 1000000000000000, Bytes.replicate 32 8, none, 9⟩)]

end Sample

/-- The sample deposit is backed, fetched and credited. -/
theorem deposit_backed :
    Unforged Sample.depositL1Tx ∧ fetchDeposits [Sample.depositL1Tx] none = [Sample.deposit] ∧
    (∀ event ∈ fetchDeposits [Sample.depositL1Tx] none, Backed [Sample.depositL1Tx] event) ∧
    ∃ s drafts, History Sample.idleEnv
      (Watches Sample.idleEnv.prims [Sample.depositL1Tx]) s drafts ∧
      creditedDeposits drafts = [Sample.deposit] ∧
      ∀ d ∈ creditedDeposits drafts, Backed [Sample.depositL1Tx] d := by
  have hunforged := Sample.unforged_depositL1Tx
  have hall : ∀ tx ∈ [Sample.depositL1Tx], tx.failed = false → Unforged tx := by
    rintro tx htx -
    rw [List.mem_singleton.mp htx]
    exact hunforged
  have hnodup : ([Sample.depositL1Tx].map (·.signature)).Nodup := List.nodup_singleton _
  have hfetch : fetchDeposits [Sample.depositL1Tx] none = [Sample.deposit] := by
    rw [fetchDeposits_none hnodup]
    exact List.filterMap_cons_some
      (L1Transaction.found_eq_some_iff.mpr ⟨rfl, Sample.depositInTx_depositL1Tx⟩)
  obtain ⟨order⟩ := Privacy.MapOrder.nonempty
  obtain ⟨s₀, h₀, hidle, -, hpending, hmem, hlatest, -, -, -, hreceipt⟩ := Sample.initial_idleEnv
  have hwatch : Watches Sample.idleEnv.prims [Sample.depositL1Tx] s₀ []
    (.enqueue [Sample.deposit]) :=
    ⟨[Sample.depositL1Tx], Store.empty, List.prefix_rfl, by rw [hfetch]; rfl⟩
  have hist₀ : History Sample.idleEnv (Watches Sample.idleEnv.prims [Sample.depositL1Tx]) s₀ [] :=
    .initial h₀
  obtain ⟨node, draft, -, hist, -, hcredited, -⟩ := Sample.credit_deposit order hist₀
    (fun _ => ⟨hwatch, trivial, fun _ => trivial⟩) hidle hpending (by rw [hmem]; rfl)
    (fun latest h => by cases hlatest.symm.trans h) hreceipt
  have hcredits : creditedDeposits ([] ++ [draft]) = [Sample.deposit] := by
    simp [creditedDeposits, hcredited]
  obtain ⟨hone, hhistory, hrun⟩ := deposits_backed_iff_unforged [Sample.depositL1Tx] hnodup
  refine ⟨(hone _).mp ((hone _).mpr hunforged), hfetch, ?_, _, _, hist, hcredits, ?_⟩
  · exact (hhistory none).mpr fun tx htx =>
      hall tx (getSignaturesForAddress_subset htx)
  · exact hrun _ _ _ hall hist

/-- A line of another program is taken for a deposit that was never made. -/
theorem forged_deposit_fetched :
    depositInTx Sample.forgedL1Tx.signature Sample.forgedL1Tx.log =
      some ⟨"4xForged", none, 9, 1000000000000000, Bytes.replicate 32 8⟩ ∧
    fetchDeposits [Sample.forgedL1Tx] none =
      [⟨"4xForged", none, 9, 1000000000000000, Bytes.replicate 32 8⟩] ∧
    Sample.forgedL1Tx.failed = false ∧ Sample.forgedL1Tx.emitted = [] := by
  have hfound : depositInTx Sample.forgedL1Tx.signature Sample.forgedL1Tx.log =
      some ⟨"4xForged", none, 9, 1000000000000000, Bytes.replicate 32 8⟩ := by
    rw [depositInTx, Sample.forgedL1Tx, List.findSome?_cons]
    simp only [LogEntry.text]
    rw [depositInLine_line]
    rfl
  have hnodup : ([Sample.forgedL1Tx].map (·.signature)).Nodup := List.nodup_singleton _
  refine ⟨hfound, ?_, rfl, rfl⟩
  rw [fetchDeposits_none hnodup]
  exact List.filterMap_cons_some (L1Transaction.found_eq_some_iff.mpr ⟨rfl, hfound⟩)

end Zul.Node
