import Zul.Lib.Ledger
import Zul.Privacy.Service

/-! # The moves of a block's pool transactions

An accepted pool transaction pays the flat fee and makes the movement of funds its instruction
names; a rejected one moves nothing. So the overlays a block ends with are the moves of its
accepted transactions, made in order.
-/

namespace Zul.Privacy

def PoolInstruction.effects : PoolInstruction → List PoolEffect
  | .shield asset amount _ _ => [.depositToVault asset amount]
  | .transfer _ _ _ _ fee _ => if 0 < fee then [.payFee fee] else []
  | .unshield _ _ _ _ asset amount recipient _ => [.withdrawFromVault asset amount recipient]

theorem PoolProcessor.process_effects {P : Prims} {V : ProofVerifier} {spent : H256 → Bool}
    {ctx ctx' : PoolContext} {instruction : PoolInstruction} {outcome : PoolOutcome}
    (h : process P V spent ctx instruction = (ctx', .ok outcome)) :
    outcome.effects = instruction.effects := by
  cases instruction with
  | shield asset amount secret note =>
    simp only [process, shield] at h
    split at h
    · cases h
    · split at h
      · cases h
      · split at h
        · cases h
        · cases h
          rfl
  | transfer proof root nfs commitments fee notes =>
    simp only [process, transfer] at h
    split at h
    · cases h
    · split at h
      · cases h
      · cases h
        rfl
  | unshield proof root nullifier change asset amount recipient note =>
    simp only [process, unshield] at h
    split at h
    · cases h
    · split at h
      · cases h
      · cases h
        rfl

namespace PoolService

variable (P : Prims) (V : ProofVerifier) (cfg : PoolConfig) (store : Store)

def lamportMoves (feePayer : Pubkey) : PoolEffect → List (Move Pubkey)
  | .depositToVault .native amount => [⟨feePayer, cfg.vault, amount⟩]
  | .withdrawFromVault .native amount recipient => [⟨cfg.vault, recipient, amount⟩]
  | .payFee amount => [⟨cfg.vault, cfg.feeCollector, amount⟩]
  | .depositToVault (.spl _) _ => []
  | .withdrawFromVault (.spl _) _ _ => []

/-- The wrapped tokens an effect moves, between owners, with their mint. -/
def wrappedMoves (feePayer : Pubkey) : PoolEffect → List (Bytes 32 × Move Pubkey)
  | .depositToVault (.spl mint) amount => [(mint, ⟨feePayer, cfg.vault, amount⟩)]
  | .withdrawFromVault (.spl mint) amount recipient => [(mint, ⟨cfg.vault, recipient, amount⟩)]
  | .depositToVault .native _ => []
  | .withdrawFromVault .native _ _ => []
  | .payFee _ => []

/-- The lamports an accepted transaction moves: the flat fee, then its effects. -/
def nativeMoves (tx : Pubkey × PoolInstruction) : List (Move Pubkey) :=
  ⟨tx.1, cfg.feeCollector, cfg.flatFee⟩ :: tx.2.effects.flatMap (lamportMoves cfg tx.1)

def tokenMoves (tx : Pubkey × PoolInstruction) : List (Bytes 32 × Move Pubkey) :=
  tx.2.effects.flatMap (wrappedMoves cfg tx.1)

def moveAllLamports (overlay : PartialMap Pubkey UInt64) (ms : List (Move Pubkey)) :
    PartialMap Pubkey UInt64 :=
  ms.foldl (fun overlay m => moveLamports store overlay m.source m.target m.amount) overlay

def moveAllWrapped (tokenOverlay : PartialMap Pubkey StoredAccount)
    (ms : List (Bytes 32 × Move Pubkey)) : Option (PartialMap Pubkey StoredAccount) :=
  ms.foldlM (fun tokenOverlay m =>
    moveWrapped P store tokenOverlay m.1 m.2.source m.2.target m.2.amount) tokenOverlay

/-- The transactions of a list that are accepted, each in the state the ones before it left. -/
def accepted : Running → List (Pubkey × PoolInstruction) → List (Pubkey × PoolInstruction)
  | _, [] => []
  | r, tx :: txs =>
    match applyOne P V cfg store r tx.1 tx.2 with
    | none => []
    | some (r, .ok ()) => tx :: accepted r txs
    | some (r, .error _) => accepted r txs

variable {P V cfg store}

theorem moveAllWrapped_append (tokenOverlay : PartialMap Pubkey StoredAccount)
    (ms ms' : List (Bytes 32 × Move Pubkey)) :
    moveAllWrapped P store tokenOverlay (ms ++ ms') =
      (moveAllWrapped P store tokenOverlay ms).bind (moveAllWrapped P store · ms') :=
  List.foldlM_append

theorem moveAllLamports_append (overlay : PartialMap Pubkey UInt64) (ms ms' : List (Move Pubkey)) :
    moveAllLamports store overlay (ms ++ ms') =
      moveAllLamports store (moveAllLamports store overlay ms) ms' :=
  List.foldl_append

theorem applyEffect_spec {feePayer : Pubkey} {r r' : Running} {effect : PoolEffect}
    (h : applyEffect P cfg store feePayer r effect = some r') :
    r'.ctx = r.ctx ∧
      r'.overlay = moveAllLamports store r.overlay (lamportMoves cfg feePayer effect) ∧
      moveAllWrapped P store r.tokenOverlay (wrappedMoves cfg feePayer effect) =
        some r'.tokenOverlay := by
  rcases effect with ⟨_ | mint, amount⟩ | ⟨_ | mint, amount, recipient⟩ | amount
  all_goals simp only [applyEffect, Option.bind_eq_bind, Option.bind_eq_some_iff] at h
  · cases h
    exact ⟨rfl, rfl, rfl⟩
  · obtain ⟨tokenOverlay, hmove, h⟩ := h
    cases h
    exact ⟨rfl, rfl, by simp [moveAllWrapped, wrappedMoves, hmove]⟩
  · cases h
    exact ⟨rfl, rfl, rfl⟩
  · obtain ⟨tokenOverlay, hmove, h⟩ := h
    cases h
    exact ⟨rfl, rfl, by simp [moveAllWrapped, wrappedMoves, hmove]⟩
  · cases h
    exact ⟨rfl, rfl, rfl⟩

theorem applyEffects_spec {feePayer : Pubkey} {r r' : Running} {effects : List PoolEffect}
    (h : effects.foldlM (applyEffect P cfg store feePayer) r = some r') :
    r'.ctx = r.ctx ∧
      r'.overlay = moveAllLamports store r.overlay (effects.flatMap (lamportMoves cfg feePayer)) ∧
      moveAllWrapped P store r.tokenOverlay (effects.flatMap (wrappedMoves cfg feePayer)) =
        some r'.tokenOverlay := by
  induction effects generalizing r with
  | nil =>
    cases h
    exact ⟨rfl, rfl, rfl⟩
  | cons effect effects ih =>
    rw [List.foldlM_cons, Option.bind_eq_bind, Option.bind_eq_some_iff] at h
    obtain ⟨r₁, hone, h⟩ := h
    obtain ⟨hctx, hover, htoken⟩ := applyEffect_spec hone
    obtain ⟨hctx', hover', htoken'⟩ := ih h
    refine ⟨hctx'.trans hctx, ?_, ?_⟩
    · rw [hover', hover, List.flatMap_cons, moveAllLamports_append]
    · rw [List.flatMap_cons, moveAllWrapped_append, htoken]
      exact htoken'

/-- An accepted transaction passes the checks of the service and of the state machine, and makes
its moves. -/
theorem applyOne_ok {r r' : Running} {tx : Pubkey × PoolInstruction}
    (h : applyOne P V cfg store r tx.1 tx.2 = some (r', .ok ())) :
    checkFunds P cfg store r tx.1 tx.2 = .ok () ∧
      (∃ outcome, PoolProcessor.process P V store.isNullifierSpent r.ctx tx.2 =
        (r'.ctx, .ok outcome)) ∧
      r'.overlay = moveAllLamports store r.overlay (nativeMoves cfg tx) ∧
      moveAllWrapped P store r.tokenOverlay (tokenMoves cfg tx) = some r'.tokenOverlay := by
  unfold applyOne at h
  split at h
  · cases h
  · rename_i hfunds
    split at h
    · cases h
    · rename_i ctx outcome hprocess
      simp only [Option.bind_eq_bind, Option.bind_eq_some_iff] at h
      obtain ⟨r₁, heffects, h⟩ := h
      cases h
      obtain ⟨hctx, hover, htoken⟩ := applyEffects_spec heffects
      rw [PoolProcessor.process_effects hprocess] at hover htoken
      refine ⟨hfunds, ⟨outcome, ?_⟩, hover, htoken⟩
      rw [hprocess, show r₁.ctx = ctx from hctx]

theorem applyOne_shield_of_insert {r : Running} {feePayer : Pubkey} {asset : Asset}
    {amount : UInt64} {secret : FieldBytes} {note : List UInt8} {x : Fr}
    (hfunds : checkFunds P cfg store r feePayer (.shield asset amount secret note) = .ok ())
    (hamount : amount ≠ 0) (hsecret : frFromBytes secret = some x)
    (hinsert : ∀ leaf, ∃ index, (r.ctx.state.insert P leaf).2 = .ok index)
    (htokens : (moveAllWrapped P store r.tokenOverlay
      (tokenMoves cfg (feePayer, .shield asset amount secret note))).isSome) :
    ∃ r', applyOne P V cfg store r feePayer (.shield asset amount secret note) =
      some (r', .ok ()) := by
  obtain ⟨ctx, event, hprocess⟩ : ∃ ctx event,
      PoolProcessor.process P V store.isNullifierSpent r.ctx (.shield asset amount secret note) =
        (ctx, .ok ⟨[.depositToVault asset amount], [event]⟩) := by
    obtain ⟨index, hindex⟩ := hinsert
      (noteCommitmentFromSecret P (PoolProcessor.assetIdFr asset) amount x)
    rcases hout : r.ctx.state.insert P
      (noteCommitmentFromSecret P (PoolProcessor.assetIdFr asset) amount x) with ⟨state, result⟩
    rw [hout] at hindex
    subst hindex
    simp only [PoolProcessor.process, PoolProcessor.shield, PoolProcessor.field, hamount, hsecret,
      if_false, PoolProcessor.insertNote, hout]
    exact ⟨_, _, rfl⟩
  unfold applyOne
  rw [hfunds]
  simp only [hprocess, List.foldlM_cons, List.foldlM_nil]
  cases asset with
  | native => exact ⟨_, rfl⟩
  | spl mint =>
    obtain ⟨tokens, htokens⟩ := Option.isSome_iff_exists.mp htokens
    have hmove : moveWrapped P store r.tokenOverlay mint feePayer cfg.vault amount =
        some tokens := by
      simpa [moveAllWrapped, tokenMoves, wrappedMoves, PoolInstruction.effects] using htokens
    simp only [applyEffect, hmove]
    exact ⟨_, rfl⟩

theorem applyOne_shield {r : Running} {feePayer : Pubkey} {asset : Asset} {amount : UInt64}
    {secret : FieldBytes} {note : List UInt8} {x : Fr}
    (hfunds : checkFunds P cfg store r feePayer (.shield asset amount secret note) = .ok ())
    (hamount : amount ≠ 0) (hsecret : frFromBytes secret = some x)
    (hfirst : r.ctx.state.nextLeafIndex = 0)
    (htokens : (moveAllWrapped P store r.tokenOverlay
      (tokenMoves cfg (feePayer, .shield asset amount secret note))).isSome) :
    ∃ r', applyOne P V cfg store r feePayer (.shield asset amount secret note) =
      some (r', .ok ()) :=
  applyOne_shield_of_insert hfunds hamount hsecret
    (fun leaf => ⟨_, PoolState.insert_first P hfirst leaf⟩) htokens

theorem applyOne_error {r r' : Running} {tx : Pubkey × PoolInstruction} {e : PoolServiceError}
    (h : applyOne P V cfg store r tx.1 tx.2 = some (r', .error e)) :
    r'.overlay = r.overlay ∧ r'.tokenOverlay = r.tokenOverlay ∧
      (r'.ctx = r.ctx ∨ ∃ e', PoolProcessor.process P V store.isNullifierSpent r.ctx tx.2 =
        (r'.ctx, .error e')) := by
  unfold applyOne at h
  split at h
  · cases h
    exact ⟨rfl, rfl, .inl rfl⟩
  · split at h
    · rename_i hprocess
      cases h
      exact ⟨rfl, rfl, .inr ⟨_, hprocess⟩⟩
    · simp only [Option.bind_eq_bind, Option.bind_eq_some_iff] at h
      obtain ⟨r₁, -, h⟩ := h
      cases h

theorem applyAll_spec {txs : List (Pubkey × PoolInstruction)}
    {acc out : Running × List (Except PoolServiceError Unit)}
    (h : txs.foldlM (applyNext P V cfg store) acc = some out) :
    out.1.overlay = moveAllLamports store acc.1.overlay
        ((accepted P V cfg store acc.1 txs).flatMap (nativeMoves cfg)) ∧
      moveAllWrapped P store acc.1.tokenOverlay
        ((accepted P V cfg store acc.1 txs).flatMap (tokenMoves cfg)) = some out.1.tokenOverlay ∧
      (out.2.any isOk ↔ acc.2.any isOk ∨ accepted P V cfg store acc.1 txs ≠ []) := by
  induction txs generalizing acc with
  | nil =>
    cases h
    exact ⟨rfl, rfl, by simp [accepted]⟩
  | cons tx txs ih =>
    rw [List.foldlM_cons, Option.bind_eq_bind, Option.bind_eq_some_iff] at h
    obtain ⟨acc₁, hone, h⟩ := h
    obtain ⟨hover, htoken, hdirty⟩ := ih h
    simp only [applyNext, Option.bind_eq_bind, Option.bind_eq_some_iff] at hone
    obtain ⟨⟨r₁, status⟩, hone, hacc⟩ := hone
    cases hacc
    cases status with
    | ok u =>
      obtain ⟨-, -, hover₁, htoken₁⟩ := applyOne_ok hone
      simp only [accepted, hone, List.flatMap_cons, moveAllLamports_append, moveAllWrapped_append,
        ← hover₁, htoken₁]
      exact ⟨hover, htoken, by simpa [isOk] using hdirty⟩
    | error e =>
      obtain ⟨hover₁, htoken₁, -⟩ := applyOne_error hone
      simp only [accepted, hone, ← hover₁, ← htoken₁]
      exact ⟨hover, htoken, by simpa [isOk] using hdirty⟩

/-! ## Lamports -/

theorem balance_moveLamports (overlay : PartialMap Pubkey UInt64) (m : Move Pubkey) :
    balance store (moveLamports store overlay m.source m.target m.amount) =
      Ledger.move (balance store overlay) m := by
  funext k
  rw [Ledger.move, Function.update_apply, Function.update_apply, balance, moveLamports,
    PartialMap.insert_apply, PartialMap.insert_apply]
  by_cases ht : k = m.target
  · simp [ht]
  · by_cases hs : k = m.source
    · simp [hs, hs ▸ ht]
    · simp [ht, hs, balance]

theorem balance_moveAllLamports (overlay : PartialMap Pubkey UInt64) (ms : List (Move Pubkey)) :
    balance store (moveAllLamports store overlay ms) =
      ms.foldl Ledger.move (balance store overlay) := by
  induction ms generalizing overlay with
  | nil => rfl
  | cons m ms ih => rw [List.foldl_cons, ← balance_moveLamports, ← ih]; rfl

def endpoints (ms : List (Move Pubkey)) : List Pubkey := ms.flatMap fun m => [m.source, m.target]

theorem moveAllLamports_of_notMem {overlay : PartialMap Pubkey UInt64} {ms : List (Move Pubkey)}
    {k : Pubkey} (h : k ∉ endpoints ms) : moveAllLamports store overlay ms k = overlay k := by
  induction ms generalizing overlay with
  | nil => rfl
  | cons m ms ih =>
    simp only [endpoints, List.flatMap_cons, List.mem_append, List.mem_cons, List.not_mem_nil,
      or_false, not_or] at h
    obtain ⟨⟨hs, ht⟩, hms⟩ := h
    refine (ih hms).trans ?_
    show moveLamports store overlay m.source m.target m.amount k = overlay k
    rw [moveLamports, PartialMap.insert_of_ne _ _ ht, PartialMap.insert_of_ne _ _ hs]

theorem moveAllLamports_isSome_iff (store : Store) (overlay : PartialMap Pubkey UInt64)
    (ms : List (Move Pubkey)) (k : Pubkey) :
    (moveAllLamports store overlay ms k).isSome ↔ (overlay k).isSome ∨ k ∈ endpoints ms := by
  induction ms generalizing overlay with
  | nil => simp [moveAllLamports, endpoints]
  | cons m ms ih =>
    refine (ih (moveLamports store overlay m.source m.target m.amount)).trans ?_
    rw [moveLamports, PartialMap.insert_apply, PartialMap.insert_apply]
    simp only [endpoints, List.flatMap_cons, List.mem_append, List.mem_cons, List.not_mem_nil,
      or_false]
    by_cases ht : k = m.target
    · simp [ht]
    · rw [if_neg ht]
      by_cases hs : k = m.source
      · simp [hs]
      · simp [hs, ht]

/-! ## Wrapped tokens -/

def amountOf (account : Option StoredAccount) : UInt64 :=
  (account.bind fun a => WrappedSpl.tokenAccountAmount a.data).getD 0

/-- The lamports a token write carries: the committed ones, or rent for a created account. -/
def carriedLamports (store : Store) (k : Pubkey) : UInt64 :=
  ((store.getAccount k).map (·.lamports)).getD
    (WrappedSpl.rentExemptLamports WrappedSpl.ACCOUNT_LEN)

def CarriesLamports (store : Store) (tokens : PartialMap Pubkey StoredAccount) : Prop :=
  ∀ k account, tokens k = some account → account.lamports = carriedLamports store k

variable (P) in
def tokenEndpoints (ms : List (Bytes 32 × Move Pubkey)) : List Pubkey :=
  ms.flatMap fun m => [tokenKey P m.1 m.2.source, tokenKey P m.1 m.2.target]

variable (P) in
/-- A token move between owners as a move between their token accounts. -/
def accountMove (m : Bytes 32 × Move Pubkey) : Move Pubkey :=
  ⟨tokenKey P m.1 m.2.source, tokenKey P m.1 m.2.target, m.2.amount⟩

theorem updateToken_spec {tokens tokens' : PartialMap Pubkey StoredAccount} {mint : Bytes 32}
    {owner : Pubkey} {f : UInt64 → UInt64}
    (h : updateToken P store tokens mint owner f = some tokens') :
    (∀ k, (tokens' k).isSome ↔ (tokens k).isSome ∨ k = tokenKey P mint owner) ∧
      (CarriesLamports store tokens → CarriesLamports store tokens') ∧
      (fun k => amountOf (tokens'.onto store.getAccount k)) =
        Function.update (fun k => amountOf (tokens.onto store.getAccount k)) (tokenKey P mint owner)
          (f (amountOf (tokens.onto store.getAccount (tokenKey P mint owner)))) := by
  simp only [updateToken, Option.bind_eq_bind, Option.bind_eq_some_iff] at h
  obtain ⟨data, hdata, h⟩ := h
  cases h
  refine ⟨fun k => ?_, fun hcarry k account hk => ?_, ?_⟩
  · rw [PartialMap.insert_apply]
    split <;> simp [*]
  · rw [PartialMap.insert_apply] at hk
    split at hk
    · rename_i heq
      cases hk
      subst heq
      simp only [tokenAccount, PartialMap.onto_apply]
      cases htoken : tokens (tokenKey P mint owner) with
      | some account => exact hcarry _ _ htoken
      | none => cases hstore : store.getAccount (tokenKey P mint owner) <;>
          simp [carriedLamports, hstore, freshTokenAccount]
    · exact hcarry _ _ hk
  · funext k
    rw [PartialMap.insert_onto, Function.update_apply]
    split
    · rw [amountOf, Option.bind_some, WrappedSpl.tokenAccountAmount_set hdata, Option.getD_some]
      congr 1
      unfold tokenAccount amountOf
      cases tokens.onto store.getAccount (tokenKey P mint owner) <;> simp [freshTokenAccount]
    · rfl

theorem moveWrapped_spec {tokens tokens' : PartialMap Pubkey StoredAccount}
    {m : Bytes 32 × Move Pubkey}
    (h : moveWrapped P store tokens m.1 m.2.source m.2.target m.2.amount = some tokens') :
    (∀ k, (tokens' k).isSome ↔ (tokens k).isSome ∨ k ∈ tokenEndpoints P [m]) ∧
      (CarriesLamports store tokens → CarriesLamports store tokens') ∧
      (fun k => amountOf (tokens'.onto store.getAccount k)) =
        Ledger.shift (fun k => amountOf (tokens.onto store.getAccount k)) (accountMove P m) := by
  simp only [moveWrapped, Option.bind_eq_bind, Option.bind_eq_some_iff] at h
  obtain ⟨tokens₁, hsource, htarget⟩ := h
  obtain ⟨hkeys, hcarry, hamount⟩ := updateToken_spec hsource
  obtain ⟨hkeys', hcarry', hamount'⟩ := updateToken_spec htarget
  refine ⟨fun k => ?_, fun h => hcarry' (hcarry h), ?_⟩
  · rw [hkeys', hkeys]
    simp [tokenEndpoints, or_assoc]
  · rw [hamount', hamount, congrFun hamount]
    rfl

/-- The buffers a move reads and writes: a token account has an amount field, or is created with
one. -/
theorem updateToken_isSome {tokens : PartialMap Pubkey StoredAccount} {mint : Bytes 32}
    {owner : Pubkey} {f : UInt64 → UInt64} :
    (updateToken P store tokens mint owner f).isSome ↔
      AtLeast 72 (tokens.onto store.getAccount (tokenKey P mint owner)) := by
  have hdata : (updateToken P store tokens mint owner f).isSome ↔
      72 ≤ (tokenAccount P store tokens mint owner).data.length := by
    rw [← WrappedSpl.setTokenAccountAmount_isSome (a := f ((WrappedSpl.tokenAccountAmount
      (tokenAccount P store tokens mint owner).data).getD 0)), updateToken]
    cases WrappedSpl.setTokenAccountAmount (tokenAccount P store tokens mint owner).data _ <;> rfl
  rw [hdata, tokenAccount]
  cases tokens.onto store.getAccount (tokenKey P mint owner) with
  | none => simp [freshTokenAccount, WrappedSpl.length_packTokenAccount, WrappedSpl.ACCOUNT_LEN]
  | some account => simp

theorem updateToken_frame {tokens tokens' : PartialMap Pubkey StoredAccount} {mint : Bytes 32}
    {owner : Pubkey} {f : UInt64 → UInt64}
    (h : updateToken P store tokens mint owner f = some tokens') (k : Pubkey) :
    (k ≠ tokenKey P mint owner → tokens' k = tokens k) ∧
      (AtLeast 72 (tokens'.onto store.getAccount k) ↔
        AtLeast 72 (tokens.onto store.getAccount k)) := by
  have hbuffer := updateToken_isSome.mp (Option.isSome_iff_exists.mpr ⟨tokens', h⟩)
  simp only [updateToken, Option.bind_eq_bind, Option.bind_eq_some_iff] at h
  obtain ⟨data, hdata, h⟩ := h
  cases h
  have hlength : 72 ≤ data.length := by
    rw [WrappedSpl.length_setTokenAccountAmount hdata, ← WrappedSpl.setTokenAccountAmount_isSome,
      hdata]
    rfl
  constructor
  · intro hk
    exact PartialMap.insert_of_ne _ _ hk
  · rw [PartialMap.insert_onto]
    split
    · rename_i hk
      subst hk
      exact iff_of_true (atLeast_some.mpr hlength) hbuffer
    · rfl

theorem moveWrapped_isSome {tokens : PartialMap Pubkey StoredAccount} {mint : Bytes 32}
    {source target : Pubkey} {amount : UInt64} :
    (moveWrapped P store tokens mint source target amount).isSome ↔
      AtLeast 72 (tokens.onto store.getAccount (tokenKey P mint source)) ∧
        AtLeast 72 (tokens.onto store.getAccount (tokenKey P mint target)) := by
  rw [moveWrapped, ← updateToken_isSome (f := (·.saturatingSub amount))]
  cases h : updateToken P store tokens mint source (·.saturatingSub amount) with
  | none => simp
  | some tokens' =>
    rw [← (updateToken_frame h _).2]
    simp [updateToken_isSome]

theorem moveAllWrapped_spec {tokens tokens' : PartialMap Pubkey StoredAccount}
    {ms : List (Bytes 32 × Move Pubkey)} (h : moveAllWrapped P store tokens ms = some tokens') :
    (∀ k, (tokens' k).isSome ↔ (tokens k).isSome ∨ k ∈ tokenEndpoints P ms) ∧
      (CarriesLamports store tokens → CarriesLamports store tokens') ∧
      (fun k => amountOf (tokens'.onto store.getAccount k)) =
        (ms.map (accountMove P)).foldl Ledger.shift
          (fun k => amountOf (tokens.onto store.getAccount k)) := by
  induction ms generalizing tokens with
  | nil =>
    cases h
    exact ⟨by simp [tokenEndpoints], id, rfl⟩
  | cons m ms ih =>
    rw [moveAllWrapped, List.foldlM_cons, Option.bind_eq_bind, Option.bind_eq_some_iff] at h
    obtain ⟨tokens₁, hone, h⟩ := h
    obtain ⟨hkeys, hcarry, hamount⟩ := moveWrapped_spec hone
    obtain ⟨hkeys', hcarry', hamount'⟩ := ih h
    refine ⟨fun k => ?_, fun h => hcarry' (hcarry h), ?_⟩
    · rw [hkeys', hkeys, or_assoc, ← List.mem_append]
      rfl
    · rw [hamount', hamount]
      rfl

theorem tokenBalance_eq (tokens : PartialMap Pubkey StoredAccount) (mint : Bytes 32)
    (owner : Pubkey) :
    tokenBalance P store tokens mint owner =
      amountOf (tokens.onto store.getAccount (tokenKey P mint owner)) := by
  unfold tokenBalance amountOf
  cases tokens.onto store.getAccount (tokenKey P mint owner) <;> rfl

theorem covered_tokenMoves {r : Running} {tx : Pubkey × PoolInstruction}
    (h : checkFunds P cfg store r tx.1 tx.2 = .ok ()) :
    Ledger.CoveredAll (fun k => amountOf (r.tokenOverlay.onto store.getAccount k))
      ((tokenMoves cfg tx).map (accountMove P)) := by
  obtain ⟨feePayer, instruction⟩ := tx
  cases instruction with
  | shield asset amount secret note =>
    cases asset with
    | native => exact trivial
    | spl mint =>
      simp only [checkFunds] at h
      split at h
      · cases h
      · dsimp only [bind, Except.bind, pure, Except.pure] at h
        split at h
        · cases h
        · rename_i hcover
          rw [tokenBalance_eq, UInt64.not_lt] at hcover
          exact ⟨hcover, trivial⟩
  | transfer proof root nfs commitments fee notes =>
    simp only [tokenMoves, PoolInstruction.effects]
    split <;> exact trivial
  | unshield proof root nullifier change asset amount recipient note =>
    cases asset with
    | native => exact trivial
    | spl mint =>
      simp only [checkFunds] at h
      split at h
      · cases h
      · dsimp only [bind, Except.bind, pure, Except.pure] at h
        split at h
        · cases h
        · rename_i hcover
          rw [tokenBalance_eq, UInt64.not_lt] at hcover
          exact ⟨hcover, trivial⟩

theorem covered_accepted {txs : List (Pubkey × PoolInstruction)}
    {acc out : Running × List (Except PoolServiceError Unit)}
    (h : txs.foldlM (applyNext P V cfg store) acc = some out) :
    Ledger.CoveredAll (fun k => amountOf (acc.1.tokenOverlay.onto store.getAccount k))
      (((accepted P V cfg store acc.1 txs).flatMap (tokenMoves cfg)).map (accountMove P)) := by
  induction txs generalizing acc with
  | nil => exact trivial
  | cons tx txs ih =>
    rw [List.foldlM_cons, Option.bind_eq_bind, Option.bind_eq_some_iff] at h
    obtain ⟨acc₁, hone, h⟩ := h
    have hrest := ih h
    simp only [applyNext, Option.bind_eq_bind, Option.bind_eq_some_iff] at hone
    obtain ⟨⟨r₁, status⟩, hone, hacc⟩ := hone
    cases hacc
    cases status with
    | ok u =>
      obtain ⟨hfunds, -, -, htoken⟩ := applyOne_ok hone
      obtain ⟨-, -, hamount⟩ := moveAllWrapped_spec htoken
      simp only [accepted, hone, List.flatMap_cons, List.map_append, Ledger.coveredAll_append,
        ← hamount]
      exact ⟨covered_tokenMoves hfunds, hrest⟩
    | error e =>
      obtain ⟨-, htoken, -⟩ := applyOne_error hone
      simp only [accepted, hone, ← htoken]
      exact hrest

end PoolService

end Zul.Privacy
