import Zul.Privacy.Moves

/-! # What one move conserves

A lamport move reads both balances before it writes either, so between an account and itself the
credit overwrites the debit and creates the amount. A token move reads its target after the debit
and conserves the tokens of the mint between any two owners; it panics on a token account without
an amount field.
-/

namespace Zul.Privacy.PoolService

variable {P : Prims} {store : Store} {mint : Bytes 32} {source target : Pubkey} {amount : UInt64}

/-- The sum of all balances and every balance but two are as before. -/
structure LamportsKept (store : Store) (before after : PartialMap Pubkey UInt64)
    (source target : Pubkey) : Prop where
  total : ∑ k, (balance store after k).toNat = ∑ k, (balance store before k).toNat
  others : ∀ k, k ≠ source → k ≠ target → balance store after k = balance store before k

noncomputable def associatedAccounts (P : Prims) (mint : Bytes 32) : Finset Pubkey :=
  Finset.univ.image (tokenKey P mint)

structure TokensKept (P : Prims) (store : Store) (mint : Bytes 32)
    (before after : PartialMap Pubkey StoredAccount) (source target : Pubkey) : Prop where
  total : ∑ k ∈ associatedAccounts P mint, (amountOf (after.onto store.getAccount k)).toNat =
    ∑ k ∈ associatedAccounts P mint, (amountOf (before.onto store.getAccount k)).toNat
  others : ∀ k, k ≠ tokenKey P mint source → k ≠ tokenKey P mint target →
    after.onto store.getAccount k = before.onto store.getAccount k

/-! ## Lamports -/

theorem balance_moveLamports_of_ne (overlay : PartialMap Pubkey UInt64) {k : Pubkey}
    (hsource : k ≠ source) (htarget : k ≠ target) :
    balance store (moveLamports store overlay source target amount) k =
      balance store overlay k := by
  rw [balance_moveLamports overlay ⟨source, target, amount⟩, Ledger.move,
    Function.update_of_ne htarget, Function.update_of_ne hsource]

theorem lamportsKept_iff {overlay : PartialMap Pubkey UInt64}
    (hfunded : amount ≤ balance store overlay source)
    (hfits : (balance store overlay target).toNat + amount.toNat < 2 ^ 64) :
    LamportsKept store overlay (moveLamports store overlay source target amount) source target ↔
      source ≠ target ∨ amount = 0 := by
  have htotal := Ledger.total_move_eq_iff (m := ⟨source, target, amount⟩) hfits
  rw [← balance_moveLamports] at htotal
  constructor
  · rintro ⟨hsum, -⟩
    rcases htotal.mp hsum with hzero | ⟨hne, -⟩
    · exact .inr hzero
    · exact .inl hne
  · intro h
    refine ⟨htotal.mpr ?_, fun k => balance_moveLamports_of_ne overlay⟩
    rcases h with hne | hzero
    · exact .inr ⟨hne, hfunded⟩
    · exact .inl hzero

/-! ## Wrapped tokens -/

theorem tokensKept_of_moveWrapped {tokens tokens' : PartialMap Pubkey StoredAccount}
    (hfunded : amount ≤ tokenBalance P store tokens mint source)
    (hfits : tokenKey P mint source ≠ tokenKey P mint target →
      (tokenBalance P store tokens mint target).toNat + amount.toNat < 2 ^ 64)
    (h : moveWrapped P store tokens mint source target amount = some tokens') :
    TokensKept P store mint tokens tokens' source target := by
  obtain ⟨-, -, hamount⟩ := moveWrapped_spec (m := (mint, ⟨source, target, amount⟩)) h
  rw [tokenBalance_eq] at hfunded hfits
  constructor
  · set m := accountMove P (mint, ⟨source, target, amount⟩)
    set bal := fun k => amountOf (tokens.onto store.getAccount k)
    have hmem : ∀ owner, tokenKey P mint owner ∈ associatedAccounts P mint := fun owner =>
      Finset.mem_image_of_mem _ (Finset.mem_univ owner)
    have hwithin : Ledger.Within (associatedAccounts P mint) m := iff_of_true (hmem _) (hmem _)
    have hcovered : m.amount ≤ bal m.source := hfunded
    have hroom : m.source ≠ m.target → (bal m.target).toNat + m.amount.toNat < 2 ^ 64 := hfits
    have hsum := Ledger.sum_shift_of_apply hwithin fun k _ =>
      Ledger.shift_apply_of_fits hcovered hroom k
    rwa [← hamount] at hsum
  · intro k hsource htarget
    simp only [moveWrapped, Option.bind_eq_bind, Option.bind_eq_some_iff] at h
    obtain ⟨tokens₁, hdebit, hcredit⟩ := h
    rw [PartialMap.onto_apply, PartialMap.onto_apply, (updateToken_frame hcredit k).1 htarget,
      (updateToken_frame hdebit k).1 hsource]

theorem tokensKept_iff {tokens : PartialMap Pubkey StoredAccount}
    (hfunded : amount ≤ tokenBalance P store tokens mint source)
    (hfits : tokenKey P mint source ≠ tokenKey P mint target →
      (tokenBalance P store tokens mint target).toNat + amount.toNat < 2 ^ 64) :
    (∃ tokens', moveWrapped P store tokens mint source target amount = some tokens' ∧
        TokensKept P store mint tokens tokens' source target) ↔
      AtLeast 72 (tokens.onto store.getAccount (tokenKey P mint source)) ∧
        AtLeast 72 (tokens.onto store.getAccount (tokenKey P mint target)) := by
  have hreturns : (moveWrapped P store tokens mint source target amount).isSome ↔ _ :=
    moveWrapped_isSome
  constructor
  · rintro ⟨tokens', h, -⟩
    exact hreturns.mp (Option.isSome_iff_exists.mpr ⟨tokens', h⟩)
  · intro hbuffers
    obtain ⟨tokens', h⟩ := Option.isSome_iff_exists.mp (hreturns.mpr hbuffers)
    exact ⟨tokens', h, tokensKept_of_moveWrapped hfunded hfits h⟩

/-- For every source, target and amount that is there and fits: a lamport move conserves exactly
between two accounts or when it moves nothing, and a token move exactly between token accounts
that have an amount field or are not there yet, an owner's own included. -/
theorem moves_conserve_iff (P : Prims) (store : Store) (source target : Pubkey)
    (amount : UInt64) :
    (∀ overlay, amount ≤ balance store overlay source →
      (balance store overlay target).toNat + amount.toNat < 2 ^ 64 →
      (LamportsKept store overlay (moveLamports store overlay source target amount) source target ↔
        source ≠ target ∨ amount = 0)) ∧
    ∀ tokens mint, amount ≤ tokenBalance P store tokens mint source →
      (tokenKey P mint source ≠ tokenKey P mint target →
        (tokenBalance P store tokens mint target).toNat + amount.toNat < 2 ^ 64) →
      ((∃ tokens', moveWrapped P store tokens mint source target amount = some tokens' ∧
          TokensKept P store mint tokens tokens' source target) ↔
        AtLeast 72 (tokens.onto store.getAccount (tokenKey P mint source)) ∧
          AtLeast 72 (tokens.onto store.getAccount (tokenKey P mint target))) := by
  constructor
  · intro overlay hfunded hfits
    exact lamportsKept_iff hfunded hfits
  · intro tokens mint hfunded hfits
    exact tokensKept_iff hfunded hfits

namespace Sample

def ownPrims : Prims where
  blake3 _ := Bytes.replicate 32 0
  findProgramAddress seeds _ := (Bytes.ofList? 32 (seeds.headD [])).getD (Bytes.replicate 32 0)
  poseidon _ := 0

def collector : Pubkey := Bytes.replicate 32 3

def holder : Pubkey := Bytes.replicate 32 1

def collectorOverlay : PartialMap Pubkey UInt64 :=
  PartialMap.insert (fun _ => none) collector 10000

/-- An account with 500 tokens. -/
def holderTokens : PartialMap Pubkey StoredAccount :=
  PartialMap.insert (fun _ => none) holder
    { freshTokenAccount holder holder with data := WrappedSpl.packTokenAccount holder holder 500 }

theorem tokenKey_ownPrims (mint : Bytes 32) (owner : Pubkey) :
    tokenKey ownPrims mint owner = owner := by
  simp [tokenKey, WrappedSpl.associatedTokenAddress, ownPrims]

theorem tokenBalance_holder :
    tokenBalance ownPrims Store.empty holderTokens holder holder = 500 := by
  rw [tokenBalance_eq, tokenKey_ownPrims, holderTokens, PartialMap.insert_onto, if_pos rfl]
  simp [amountOf]

theorem atLeast_holder : AtLeast 72 (holderTokens.onto Store.empty.getAccount
    (tokenKey ownPrims holder holder)) := by
  rw [tokenKey_ownPrims, holderTokens, PartialMap.insert_onto, if_pos rfl, atLeast_some,
    WrappedSpl.length_packTokenAccount]
  decide

end Sample

open Sample in
/-- The collector pays another account, and a holder moves tokens to itself. -/
theorem payment_conserves :
    LamportsKept Store.empty collectorOverlay
      (moveLamports Store.empty collectorOverlay collector holder 5000) collector holder ∧
    ∃ tokens', moveWrapped ownPrims Store.empty holderTokens holder holder holder 200 =
        some tokens' ∧
      TokensKept ownPrims Store.empty holder holderTokens tokens' holder holder := by
  constructor
  · exact ((moves_conserve_iff ownPrims Store.empty collector holder 5000).1 collectorOverlay
      (by decide) (by decide)).mpr (.inl (by decide))
  · apply ((moves_conserve_iff ownPrims Store.empty holder holder 200).2 holderTokens holder
      (by rw [tokenBalance_holder]; decide) (fun hne => absurd rfl hne)).mpr
    exact ⟨atLeast_holder, atLeast_holder⟩

open Sample in
/-- The collector pays the flat fee to itself and gains it. -/
theorem self_payment_mints :
    5000 ≤ balance Store.empty collectorOverlay collector ∧
      (balance Store.empty collectorOverlay collector).toNat + (5000 : UInt64).toNat < 2 ^ 64 ∧
      ¬ LamportsKept Store.empty collectorOverlay
        (moveLamports Store.empty collectorOverlay collector collector 5000) collector
        collector := by
  have hfunded : 5000 ≤ balance Store.empty collectorOverlay collector := by decide
  have hfits : (balance Store.empty collectorOverlay collector).toNat + (5000 : UInt64).toNat <
      2 ^ 64 := by decide
  refine ⟨hfunded, hfits, ?_⟩
  rw [lamportsKept_iff hfunded hfits]
  decide

end Zul.Privacy.PoolService
