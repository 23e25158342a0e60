import Zul.Node.Buffers
import Zul.Privacy.Backing
import Zul.Privacy.Insertions

/-! # A block underway

Where the pool stands after some transactions of a block over a run of blocks. Its state is the
empty one with the commitments of the notes inserted, so the roots of the latest trees are known,
and the vault covers each unspent note. A checked withdrawal with room for its change is then
accepted, and the recipient has the amount.
-/

namespace Zul.Privacy

namespace PoolService

open PoolProcessor

section Definitions

variable (P : Prims) (V : ProofVerifier) (W : Circuits.Extractor) (cfg : PoolConfig)

/-- The overlays after some transactions of the next block over a run, and the notes in the tree;
what was hashed so far is among the inputs. -/
inductive Underway (assets : Set Asset) (accounts : Set Pubkey) (inputs : Set (List Fr))
    (store : Store) : Running → List Note → Prop
  | mk {notes : List Note} {known : Set (List Fr)} {state : PoolState}
      {txs : List (Pubkey × PoolInstruction)} {r : Running}
      {statuses : List (Except PoolServiceError Unit)}
      (run : BlockRun P V W cfg assets accounts store notes known) (subset : known ⊆ inputs)
      (loaded : loadState P cfg store = .ok state)
      (admitted : AdmittedAll P V cfg assets accounts store (blockStart state) txs)
      (hashed : ∀ x, Hashed P V W cfg store (blockStart state) notes txs x → x ∈ inputs)
      (ran : txs.foldlM (applyNext P V cfg store) (blockStart state, []) = some (r, statuses)) :
      Underway assets accounts inputs store r
        (notesAfter P V W cfg store (blockStart state) notes txs)

def insertedState (notes : List Note) : PoolState :=
  (PoolState.new P).appendAll P (notes.map (Note.commitment P))

def held (store : Store) (r : Running) (owner : Pubkey) : Asset → UInt64
  | .native => balance store r.overlay owner
  | .spl mint => tokenBalance P store r.tokenOverlay mint owner

end Definitions

variable {P : Prims} {V : ProofVerifier} {W : Circuits.Extractor} {cfg : PoolConfig} {store : Store}
  {assets : Set Asset} {accounts : Set Pubkey} {inputs : Set (List Fr)} {r r' : Running}
  {notes : List Note} {tx : Pubkey × PoolInstruction}

/-! ## The state of the tree -/

theorem insertedState_append (more : List Note) :
    insertedState P (notes ++ more) =
      (insertedState P notes).appendAll P (more.map (Note.commitment P)) := by
  rw [insertedState, insertedState, List.map_append, PoolState.appendAll, PoolState.appendAll,
    PoolState.appendAll, List.foldl_append]

theorem Backed.insertedState_applyOne {status : Except PoolServiceError Unit}
    (h : Backed P cfg store assets accounts inputs r notes) (hW : W.Sound P V)
    (hstate : r.ctx.state = insertedState P notes)
    (hone : PoolService.applyOne P V cfg store r tx.1 tx.2 = some (r', status)) :
    r'.ctx.state = insertedState P (notes ++ added P W r r' tx.2) := by
  rcases applyOne_ctx h.canonical hone with ⟨hctx, -⟩ | ⟨-, hchecked, hctx, -⟩
  · rw [added_of_ctx_eq hctx, List.append_nil, hctx, hstate]
  · have hcap : r.ctx.state.nextLeafIndex.toNat ≤ PoolState.capacity :=
      h.tree.next.le.trans h.tree.length_le
    have hafter := congrArg PoolContext.state hctx
    dsimp only at hafter
    rw [insertedState_append, added_of_checked h.canonical hchecked hW hcap hafter, hafter,
      List.map_take, ← hchecked.leaves_eq hW, ← hstate]

theorem Backed.insertedState_applyAll {txs : List (Pubkey × PoolInstruction)}
    {statuses : List (Except PoolServiceError Unit)}
    {out : Running × List (Except PoolServiceError Unit)}
    (h : Backed P cfg store assets accounts inputs r notes)
    (hset : Setting P V W cfg assets accounts inputs)
    (hadmitted : AdmittedAll P V cfg assets accounts store r txs)
    (hhashed : ∀ x, Hashed P V W cfg store r notes txs x → x ∈ inputs)
    (hrun : txs.foldlM (applyNext P V cfg store) (r, statuses) = some out)
    (hstate : r.ctx.state = insertedState P notes) :
    out.1.ctx.state = insertedState P (notesAfter P V W cfg store r notes txs) := by
  induction txs generalizing r notes statuses with
  | nil =>
    cases hrun
    exact hstate
  | cons tx txs ih =>
    obtain ⟨r', status, hone, hrest⟩ := applyNext_cons hrun
    obtain ⟨hfits, hadmitted'⟩ := hadmitted.2 r' status hone
    have hstep := h.applyOne hset hadmitted.1 hfits hone
      (fun hfunds hchecked x hx => hhashed x (.checked hfunds hchecked hx))
      (fun x hx => hhashed x (.tree hone hx))
    rw [notesAfter, hone]
    exact ih hstep hadmitted' (fun x hx => hhashed x (.later hone hx)) hrest
      (h.insertedState_applyOne hset.sound hstate hone)

theorem loadState_commitBlock {store' : Store} {state : PoolState}
    {txs : List (Pubkey × PoolInstruction)} {order : MapOrder} {result : PoolBlockResult}
    {block : Block} {metas : List ExecutedTransactionMeta} {update : Smt.StateUpdate}
    {queue : BlockhashQueue} (loaded : loadState P cfg store = .ok state)
    (processed : processBlock P V cfg order store txs = some (.ok result))
    (committed : store.commitBlock P block metas result.accountWrites update queue
      result.nullifiers = .ok store') :
    ∃ r statuses, txs.foldlM (applyNext P V cfg store) (blockStart state, []) =
        some (r, statuses) ∧
      loadState P cfg store' =
        .ok (if result.statuses.any isOk then r.ctx.state else state) := by
  have haccounts : store'.accounts =
      result.accountWrites.foldl Store.writeAccount store.accounts := by
    rw [Store.commitBlock_frame committed]
  have hunchanged (h : store'.accounts = store.accounts) : loadState P cfg store' = .ok state := by
    rw [loadState, Store.getAccount, h]
    exact loaded
  by_cases hne : txs = []
  · subst hne
    cases processed
    exact ⟨_, _, rfl, hunchanged haccounts⟩
  obtain ⟨state', r, statuses, hload, hrun, hwrites, -, hstatuses⟩ :=
    processBlockSeeded_spec P V cfg hne processed
  rw [loaded] at hload
  cases hload
  have hany : result.statuses.any isOk = statuses.any isOk := by
    rw [hstatuses, List.any_map]
    congr 1
    funext status
    cases status <;> rfl
  refine ⟨r, statuses, hrun, ?_⟩
  rw [hwrites] at haccounts
  rw [hany]
  cases hdirty : statuses.any isOk with
  | true =>
    rw [hdirty] at haccounts
    exact loadState_of_dirty haccounts
  | false =>
    obtain ⟨hoverlay, htokens, hiff⟩ := applyAll_spec hrun
    have hnone : accepted P V cfg store (blockStart state) txs = [] := by
      by_contra hsome
      rw [hiff.mpr (.inr hsome)] at hdirty
      cases hdirty
    rw [show (⟨⟨state, BlockNullifiers.empty⟩, fun _ => none, fun _ => none, []⟩ : Running) =
      blockStart state from rfl, hnone] at hoverlay htokens
    rw [hdirty, foldl_assembleWrites_of_clean hoverlay (Option.some.inj htokens).symm] at haccounts
    exact hunchanged haccounts

theorem BlockRun.loadState_eq {known : Set (List Fr)}
    (run : BlockRun P V W cfg assets accounts store notes known) (hknown : known ⊆ inputs)
    (hset : Setting P V W cfg assets accounts inputs) :
    loadState P cfg store = .ok (insertedState P notes) := by
  induction run with
  | genesis fresh => exact fresh
  | block run loaded admitted processed committed ih =>
    have hsubset := Set.subset_union_left.trans hknown
    obtain ⟨state, hcommitted⟩ := run.committed hsubset hset
    have hstate := hcommitted.loaded
    rw [loaded] at hstate
    cases hstate
    have hstate := ih hsubset
    rw [loaded, Except.ok.injEq] at hstate
    obtain ⟨r, statuses, hran, hload⟩ := loadState_commitBlock loaded processed committed
    rw [hload]
    split
    · have hafter := hcommitted.start.insertedState_applyAll hset admitted
        (fun x hx => hknown (.inr hx)) hran hstate
      rw [← hafter]
    · rw [hstate]

section Underway

variable (h : Underway P V W cfg assets accounts inputs store r notes)
  (hset : Setting P V W cfg assets accounts inputs)
include h hset

/-- In the middle of a block the notes are recorded and backed, and the state is the empty one with
the notes inserted. -/
theorem Underway.spec : Backed P cfg store assets accounts inputs r notes ∧
    r.ctx.state = insertedState P notes := by
  obtain ⟨run, subset, loaded, admitted, hashed, ran⟩ := h
  obtain ⟨state, hcommitted⟩ := run.committed subset hset
  have hload := hcommitted.loaded
  rw [loaded] at hload
  cases hload
  have hstate := run.loadState_eq subset hset
  rw [loaded, Except.ok.injEq] at hstate
  exact ⟨hcommitted.start.applyAll hset admitted hashed ran,
    hcommitted.start.insertedState_applyAll hset admitted hashed ran hstate⟩

theorem Underway.isKnownRoot {k : ℕ} (hk : k ≤ notes.length) (hrecent : notes.length < k + 64)
    (hroot : treeRoot P ((notes.map (Note.commitment P)).take k) ≠ 0) :
    r.ctx.state.isKnownRoot
      (frToBytes (treeRoot P ((notes.map (Note.commitment P)).take k))) = true := by
  obtain ⟨hbacked, hstate⟩ := h.spec hset
  have hlength := hbacked.tree.length_le
  rw [List.length_map] at hlength
  have hholds := PoolState.holds_roots (P := P) (notes.map (Note.commitment P)) notes.length
    (by rw [List.length_map]) hlength
  rw [List.take_of_length_le (by rw [List.length_map]), ← insertedState, ← hstate] at hholds
  have hne : frToBytes (treeRoot P ((notes.map (Note.commitment P)).take k)) ≠
      Bytes.replicate 32 0 := by
    intro hzero
    apply hroot
    have hread := congrArg frFromBytes hzero
    rw [frFromBytes_frToBytes] at hread
    exact Option.some.inj (hread.trans (by decide))
  rw [PoolState.isKnownRoot, decide_eq_true hne, Bool.true_and, decide_eq_true_eq]
  refine (hholds.mem_iff hne).mpr ⟨notes.length - k, ?_, ?_⟩
  · rw [ROOT_HISTORY]
    omega
  · rw [PoolState.rootAfter, Nat.sub_sub_self hk]

end Underway

/-! ## The vault covers a note -/

open Circuits in
theorem Backed.amount_le (h : Backed P cfg store assets accounts inputs r notes)
    (hbind : Binding P inputs) {i : ℕ} {n : Note} (hn : notes[i]? = some n) {s blinding : Fr}
    (hs : [s] ∈ inputs) (hpk : [ownerPk P s, blinding] ∈ inputs)
    (hsecret : n.secret = noteSecret P (ownerPk P s) blinding)
    (hunspent : r.ctx.nullifiers.contains store.isNullifierSpent
      (frToBytes (nullifier P (n.commitment P) i s)) = false)
    {a : Asset} (ha : a ∈ assets) (hid : n.assetId = assetIdFr a) :
    n.amount ≤ runningVault P cfg store r a := by
  have hlive : ¬ n.Spent P inputs (r.ctx.nullifiers.contains store.isNullifierSpent) i := by
    rintro ⟨s', blinding', hs', hpk', -, hsecret', hspent⟩
    obtain rfl := key_eq_of_secret hbind hs hs' hpk hpk' (hsecret.symm.trans hsecret')
    rw [hunspent] at hspent
    cases hspent
  have hworth : Unspent.worth (Note.amountOf (assetIdFr a))
      (fun i n => ¬ n.Spent P inputs (r.ctx.nullifiers.contains store.isNullifierSpent) i) notes i =
        n.amountOf (assetIdFr a) := Unspent.worth_of_live hn hlive
  rw [Note.amountOf, if_pos hid] at hworth
  have hindex : i < notes.length := (List.getElem?_eq_some_iff.mp hn).1
  calc n.amount = _ := hworth.symm
    _ ≤ unspentTotal P inputs (r.ctx.nullifiers.contains store.isNullifierSpent) notes
        (assetIdFr a) :=
      Finset.single_le_sum (f := Unspent.worth _ _ notes) (fun _ _ => Nat.zero_le _)
        (Finset.mem_range.mpr hindex)
    _ ≤ _ := h.backed a ha

/-! ## Acceptance -/

/-- A funded and checked transaction is accepted if its commitments find room and the token
account it credits has an amount field. -/
theorem applyOne_of_checked (hr : r.ctx.state.Canonical)
    (hfunds : checkFunds P cfg store r tx.1 tx.2 = .ok ())
    (hchecked : Checked V store.isNullifierSpent r.ctx tx.2) (hroom : Room P r.ctx tx.2)
    (htokens : ∀ m ∈ tokenMoves cfg tx,
      AtLeast 72 (r.tokenOverlay.onto store.getAccount (tokenKey P m.1 m.2.target))) :
    ∃ r', applyOne P V cfg store r tx.1 tx.2 = some (r', .ok ()) := by
  have hfits : PoolFits P V cfg store r tx := fun _ _ => htokens
  obtain ⟨⟨r', status⟩, hone⟩ := Option.isSome_iff_exists.mp (applyOne_isSome.mpr hfits)
  have hspec : Processed P V store.isNullifierSpent r.ctx tx.2 _ := process_spec hr tx.2
  have hran := hone
  unfold applyOne at hran
  rcases hprocess : process P V store.isNullifierSpent r.ctx tx.2 with ⟨ctx, _ | outcome⟩
  · rw [hprocess] at hspec
    cases hspec with
    | refused hnot => exact absurd hchecked hnot
    | full _ hfull => exact absurd hroom hfull
  · simp only [hfunds, hprocess, Option.bind_eq_bind, Option.bind_eq_some_iff] at hran
    obtain ⟨r₁, -, hr₁⟩ := hran
    cases hr₁
    exact ⟨_, hone⟩

section Unshield

variable {feePayer : Pubkey} {proof : List UInt8} {root nf change : FieldBytes} {asset : Asset}
  {amount : UInt64} {recipient : Pubkey} {note : List UInt8}

theorem checkFunds_unshield (hfee : cfg.flatFee ≤ balance store r.overlay feePayer)
    (hvault : amount.toNat ≤ runningVault P cfg store r asset) :
    checkFunds P cfg store r feePayer
      (.unshield proof root nf change asset amount recipient note) = .ok () := by
  cases asset with
  | native =>
    rw [runningVault, ← UInt64.le_iff_toNat_le] at hvault
    simp only [checkFunds, if_neg (UInt64.not_lt.mpr hfee), if_neg (UInt64.not_lt.mpr hvault)]
    rfl
  | spl mint =>
    rw [runningVault, ← UInt64.le_iff_toNat_le, ← tokenBalance_eq] at hvault
    simp only [checkFunds, if_neg (UInt64.not_lt.mpr hfee), if_neg (UInt64.not_lt.mpr hvault)]
    rfl

theorem held_of_unshield
    (hone : applyOne P V cfg store r feePayer
      (.unshield proof root nf change asset amount recipient note) = some (r', .ok ()))
    (hapart : recipient ≠ feePayer ∧ recipient ≠ cfg.feeCollector ∧ recipient ≠ cfg.vault)
    (hkey : ∀ mint, asset = .spl mint → tokenKey P mint recipient ≠ tokenKey P mint cfg.vault) :
    held P store r' recipient asset = (held P store r recipient asset).saturatingAdd amount := by
  obtain ⟨-, -, hoverlay, htokens⟩ := @applyOne_ok P V cfg store r r'
    (feePayer, .unshield proof root nf change asset amount recipient note) hone
  cases asset with
  | native =>
    rw [held, hoverlay, balance_moveAllLamports]
    simp [nativeMoves, PoolInstruction.effects, lamportMoves, Ledger.move, held, hapart]
  | spl mint =>
    have hamounts := congrFun (moveAllWrapped_spec htokens).2.2 (tokenKey P mint recipient)
    rw [held, held, tokenBalance_eq, tokenBalance_eq, hamounts]
    simp [tokenMoves, PoolInstruction.effects, wrappedMoves, accountMove, Ledger.shift,
      hkey mint rfl]

/-- A checked withdrawal the vault covers, with room for its change, is accepted: the recipient has
the amount, the nullifier is spent and the change is in the tree. -/
theorem Backed.withdraw (h : Backed P cfg store assets accounts inputs r notes)
    (hset : Apart P cfg assets accounts)
    (hchecked : Checked V store.isNullifierSpent r.ctx
      (.unshield proof root nf change asset amount recipient note))
    {c : Fr} (hchange : frFromBytes change = some c) (hroom : notes.length < PoolState.capacity)
    (hvault : amount.toNat ≤ runningVault P cfg store r asset) (hmem : asset ∈ assets)
    (hfee : cfg.flatFee ≤ balance store r.overlay feePayer) (haccount : recipient ∈ accounts)
    (hapart : recipient ≠ feePayer ∧ recipient ≠ cfg.feeCollector ∧ recipient ≠ cfg.vault)
    (htoken : ∀ mint, asset = .spl mint →
      AtLeast 72 (r.tokenOverlay.onto store.getAccount (tokenKey P mint recipient))) :
    ∃ r', PoolService.applyOne P V cfg store r feePayer
        (.unshield proof root nf change asset amount recipient note) = some (r', .ok ()) ∧
      held P store r' recipient asset = (held P store r recipient asset).saturatingAdd amount ∧
      r'.ctx.nullifiers.contains store.isNullifierSpent nf = true ∧
      r'.ctx.state.TreeOf P (notes.map (Note.commitment P) ++ [c]) := by
  have hleaves : (PoolInstruction.unshield proof root nf change asset amount recipient
      note).leaves P = [c] := by
    rw [PoolInstruction.leaves, List.filterMap_cons, hchange, List.filterMap_nil]
  have hnext : r.ctx.state.nextLeafIndex.toNat = notes.length := by
    rw [h.tree.next, List.length_map]
  have hfits : Room P r.ctx (.unshield proof root nf change asset amount recipient note) := by
    rw [Room, hleaves, hnext, List.length_singleton]
    exact hroom
  have htarget : ∀ m ∈ tokenMoves cfg
      (feePayer, .unshield proof root nf change asset amount recipient note),
      AtLeast 72 (r.tokenOverlay.onto store.getAccount (tokenKey P m.1 m.2.target)) := by
    cases asset with
    | native => exact List.forall_mem_nil _
    | spl mint =>
      rintro m hm
      rw [List.mem_singleton.mp hm]
      exact htoken mint rfl
  obtain ⟨r', hone⟩ := @applyOne_of_checked P V cfg store r
    (feePayer, .unshield proof root nf change asset amount recipient note) h.canonical
    (checkFunds_unshield hfee hvault) hchecked hfits htarget
  refine ⟨r', hone, held_of_unshield hone hapart fun mint hmint heq => ?_, ?_⟩
  · subst hmint
    exact hapart.2.2 (hset.token_injective mint mint hmem hmem recipient haccount heq).2
  rcases applyOne_ctx h.canonical hone with ⟨-, hnot⟩ | ⟨-, -, hctx, -⟩
  · cases hnot
  · rw [hctx]
    constructor
    · simp [PoolInstruction.nullifiers, BlockNullifiers.contains, BlockNullifiers.insert]
    · dsimp only
      rw [hleaves, List.take_of_length_le (by rw [hnext, List.length_singleton]; omega)]
      exact h.tree.appendAll [c] (by rw [List.length_map]; exact hroom)

end Unshield

end PoolService

end Zul.Privacy
