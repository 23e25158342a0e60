import Mathlib.Data.Finset.Insert
import Zul.Primitives.Basic

/-! # Mempool

A bounded first-in-first-out queue with signature dedup and a cap per fee payer. Draining a
transaction forgets its signature and gives its payer room again, so over any run of pushes and
drains the pending set and the counters are those of the queue.
-/

namespace Zul.Node

structure Mempool where
  capacity : ℕ
  maxPerPayer : ℕ
  queue : List VersionedTransaction
  pending : Finset Signature
  perPayer : PartialMap Pubkey ℕ

inductive MempoolError
  | full
  | duplicate
  | unsigned
  | payerLimit
  deriving DecidableEq

namespace Mempool

def new (capacity maxPerPayer : ℕ) : Mempool :=
  ⟨capacity, max maxPerPayer 1, [], ∅, fun _ => none⟩

def push (m : Mempool) (tx : VersionedTransaction) : Mempool × Except MempoolError Signature :=
  match tx.signature, tx.feePayer with
  | some sig, some payer =>
    let count := (m.perPayer payer).getD 0
    if sig ∈ m.pending then (m, .error .duplicate)
    else if m.maxPerPayer ≤ count then (m, .error .payerLimit)
    else if m.capacity ≤ m.queue.length then (m, .error .full)
    else
      ({ m with
          pending := insert sig m.pending
          perPayer := m.perPayer.insert payer (count + 1)
          queue := m.queue ++ [tx] },
        .ok sig)
  | _, _ => (m, .error .unsigned)

def forget (m : Mempool) (tx : VersionedTransaction) : Mempool :=
  { m with
    pending := match tx.signature with
      | some sig => m.pending.erase sig
      | none => m.pending
    perPayer := match tx.feePayer with
      | some payer =>
        match m.perPayer payer with
        | some count =>
          if count - 1 = 0 then m.perPayer.remove payer else m.perPayer.insert payer (count - 1)
        | none => m.perPayer
      | none => m.perPayer }

/-- Remove up to `limit` transactions for the next block. -/
def drain (m : Mempool) (limit : ℕ) : Mempool × List VersionedTransaction :=
  let take := min limit m.queue.length
  let drained := m.queue.take take
  (drained.foldl forget { m with queue := m.queue.drop take }, drained)

/-! ## The pending set tracks the queue -/

/-- Queued transactions are signed, their signatures are distinct and exactly the pending ones. -/
structure Tracked (m : Mempool) : Prop where
  signed : ∀ tx ∈ m.queue, tx.signature.isSome
  nodup : (m.queue.map (·.signature)).Nodup
  mem_pending : ∀ sig, sig ∈ m.pending ↔ some sig ∈ m.queue.map (·.signature)

theorem tracked_new (capacity maxPerPayer : ℕ) : (new capacity maxPerPayer).Tracked :=
  ⟨by simp [new], by simp [new], by simp [new]⟩

theorem push_cases (m : Mempool) (tx : VersionedTransaction) :
    (m.push tx).1 = m ∨
    ∃ sig, tx.signature = some sig ∧ sig ∉ m.pending ∧
      (m.push tx).1.queue = m.queue ++ [tx] ∧ (m.push tx).1.pending = insert sig m.pending := by
  unfold push
  split
  · rename_i sig payer hsig _
    dsimp only
    split_ifs with hdup
    · exact .inl rfl
    · exact .inl rfl
    · exact .inl rfl
    · exact .inr ⟨sig, hsig, hdup, rfl, rfl⟩
  · exact .inl rfl

theorem mem_pending_push {m : Mempool} {tx : VersionedTransaction} {sig : Signature}
    (hsig : tx.signature = some sig)
    (h : (∃ sig', (m.push tx).2 = .ok sig') ∨ (m.push tx).2 = .error .duplicate) :
    sig ∈ (m.push tx).1.pending := by
  unfold push at h ⊢
  rw [hsig] at h ⊢
  cases hpayer : tx.feePayer with
  | none => simp [hpayer] at h
  | some payer =>
    rw [hpayer] at h
    dsimp only at h ⊢
    split_ifs at h ⊢ with hpending hlimit hfull
    · exact hpending
    · simp at h
    · simp at h
    · exact Finset.mem_insert_self _ _

theorem tracked_push {m : Mempool} (hm : m.Tracked) (tx : VersionedTransaction) :
    (m.push tx).1.Tracked := by
  rcases push_cases m tx with heq | ⟨sig, hsig, hnew, hqueue, hpending⟩
  · rwa [heq]
  · have hnotin : some sig ∉ m.queue.map (·.signature) := fun h => hnew ((hm.mem_pending sig).mpr h)
    refine ⟨?_, ?_, fun x => ?_⟩
    · rw [hqueue]
      intro t ht
      rcases List.mem_append.mp ht with ht | ht
      · exact hm.signed t ht
      · rw [List.mem_singleton.mp ht, hsig]; rfl
    · rw [hqueue, List.map_append, List.map_cons, List.map_nil, hsig]
      exact List.nodup_append.mpr ⟨hm.nodup, List.nodup_singleton _, fun a ha b hb => by
        rw [List.mem_singleton.mp hb]; rintro rfl; exact hnotin ha⟩
    · rw [hqueue, hpending, Finset.mem_insert, hm.mem_pending, List.map_append, List.map_cons,
        List.map_nil, hsig, List.mem_append, List.mem_singleton, Option.some.injEq, or_comm]

@[simp] theorem forget_queue (m : Mempool) (tx : VersionedTransaction) :
    (m.forget tx).queue = m.queue := rfl

theorem foldl_forget_queue (txs : List VersionedTransaction) (m : Mempool) :
    (txs.foldl forget m).queue = m.queue := by
  induction txs generalizing m with
  | nil => rfl
  | cons tx txs ih => rw [List.foldl_cons, ih, forget_queue]

theorem mem_foldl_forget_pending (txs : List VersionedTransaction) (m : Mempool) (sig : Signature) :
    sig ∈ (txs.foldl forget m).pending ↔
      sig ∈ m.pending ∧ some sig ∉ txs.map (·.signature) := by
  induction txs generalizing m with
  | nil => simp
  | cons tx txs ih =>
    rw [List.foldl_cons, ih, List.map_cons, List.mem_cons, not_or]
    cases htx : tx.signature with
    | none => simp [forget, htx]
    | some x =>
      simp only [forget, htx, Finset.mem_erase, Option.some.injEq]
      tauto

theorem drain_queue (m : Mempool) (limit : ℕ) :
    (m.drain limit).2 ++ (m.drain limit).1.queue = m.queue := by
  simp only [drain, foldl_forget_queue, List.take_append_drop]

theorem drain_of_queue_nil {m : Mempool} (h : m.queue = []) (limit : ℕ) :
    m.drain limit = (m, []) := by
  obtain ⟨capacity, maxPerPayer, queue, pending, perPayer⟩ := m
  cases h
  simp [drain]

theorem tracked_drain {m : Mempool} (hm : m.Tracked) (limit : ℕ) : (m.drain limit).1.Tracked := by
  have hq := drain_queue m limit
  have hnodup := hm.nodup
  rw [← hq, List.map_append] at hnodup
  obtain ⟨-, hrest, hdisj⟩ := List.nodup_append.mp hnodup
  refine ⟨fun tx htx => hm.signed tx (by rw [← hq]; simp [htx]), hrest, fun sig => ?_⟩
  have hpending : sig ∈ (m.drain limit).1.pending ↔
      sig ∈ m.pending ∧ some sig ∉ (m.drain limit).2.map (·.signature) :=
    mem_foldl_forget_pending ..
  rw [hpending, hm.mem_pending, ← hq, List.map_append, List.mem_append]
  constructor
  · rintro ⟨h | h, hnot⟩
    · exact absurd h hnot
    · exact h
  · exact fun h => ⟨.inr h, fun h' => hdisj _ h' _ h rfl⟩

/-! ## The counters -/

def countOf (txs : List VersionedTransaction) (payer : Pubkey) : ℕ :=
  txs.countP (·.feePayer = some payer)

/-- The counters are those of a list: positive, and for its payers only. -/
def Counts (perPayer : PartialMap Pubkey ℕ) (txs : List VersionedTransaction) : Prop :=
  ∀ payer, perPayer payer = if countOf txs payer = 0 then none else some (countOf txs payer)

theorem Counts.getD_eq {perPayer : PartialMap Pubkey ℕ} {txs : List VersionedTransaction}
    (h : Counts perPayer txs) (payer : Pubkey) : (perPayer payer).getD 0 = countOf txs payer := by
  rw [h payer]
  split
  · rename_i hzero
    exact hzero.symm
  · rfl

theorem counts_append {perPayer : PartialMap Pubkey ℕ} {txs : List VersionedTransaction}
    (h : Counts perPayer txs) {tx : VersionedTransaction} {payer : Pubkey}
    (hpayer : tx.feePayer = some payer) :
    Counts (perPayer.insert payer ((perPayer payer).getD 0 + 1)) (txs ++ [tx]) := by
  intro x
  have hcount : countOf (txs ++ [tx]) x = countOf txs x + if payer = x then 1 else 0 := by
    simp [countOf, hpayer]
  rw [PartialMap.insert_apply, h.getD_eq, hcount]
  by_cases hx : x = payer
  · simp [hx]
  · simp [hx, Ne.symm hx, h x]

theorem Counts.pos {perPayer : PartialMap Pubkey ℕ} {tx : VersionedTransaction}
    {txs : List VersionedTransaction} (h : Counts perPayer (tx :: txs)) {payer : Pubkey}
    (hpayer : tx.feePayer = some payer) : perPayer payer = some (countOf txs payer + 1) := by
  rw [h payer]
  simp [countOf, hpayer]

theorem counts_forget {m : Mempool} {tx : VersionedTransaction} {txs : List VersionedTransaction}
    (h : Counts m.perPayer (tx :: txs)) : Counts (m.forget tx).perPayer txs := by
  intro x
  cases hpayer : tx.feePayer with
  | none =>
    have hcount : countOf (tx :: txs) x = countOf txs x := by simp [countOf, hpayer]
    simp only [forget, hpayer]
    rw [h x, hcount]
  | some payer =>
    have hcount : countOf (tx :: txs) x = countOf txs x + if payer = x then 1 else 0 := by
      simp [countOf, List.countP_cons, hpayer]
    simp only [forget, hpayer, h.pos hpayer, Nat.add_sub_cancel]
    by_cases hx : x = payer
    · subst hx
      split
      · exact PartialMap.remove_self ..
      · exact PartialMap.insert_self ..
    · rw [if_neg (Ne.symm hx), Nat.add_zero] at hcount
      rw [← hcount, ← h x]
      split
      · exact PartialMap.remove_of_ne _ hx
      · exact PartialMap.insert_of_ne _ _ hx

theorem counts_foldl_forget {m : Mempool} {txs rest : List VersionedTransaction}
    (h : Counts m.perPayer (txs ++ rest)) : Counts (txs.foldl forget m).perPayer rest := by
  induction txs generalizing m with
  | nil => exact h
  | cons tx txs ih => exact ih (counts_forget h)

/-! ## Runs -/

theorem forget_limits (m : Mempool) (txs : List VersionedTransaction) :
    (txs.foldl forget m).capacity = m.capacity ∧
      (txs.foldl forget m).maxPerPayer = m.maxPerPayer := by
  induction txs generalizing m with
  | nil => exact ⟨rfl, rfl⟩
  | cons tx txs ih => exact ih (m.forget tx)

theorem push_of_error {m : Mempool} {tx : VersionedTransaction} {e : MempoolError}
    (h : (m.push tx).2 = .error e) : (m.push tx).1 = m := by
  unfold push at h ⊢
  split at h
  · dsimp only at h ⊢
    split_ifs at h ⊢
    all_goals rfl
  · rfl

theorem push_of_ok {m : Mempool} {tx : VersionedTransaction} {sig : Signature}
    (h : (m.push tx).2 = .ok sig) :
    ∃ payer, tx.feePayer = some payer ∧ (m.perPayer payer).getD 0 < m.maxPerPayer ∧
      m.queue.length < m.capacity ∧
      (m.push tx).1 = { m with
        pending := insert sig m.pending
        perPayer := m.perPayer.insert payer ((m.perPayer payer).getD 0 + 1)
        queue := m.queue ++ [tx] } := by
  unfold push at h ⊢
  split at h
  · rename_i sig' payer hsig hpayer
    dsimp only at h ⊢
    split_ifs at h ⊢ with hdup hlimit hfull
    cases h
    exact ⟨payer, hpayer, not_le.mp hlimit, not_le.mp hfull, rfl⟩
  · cases h

structure Sound (capacity maxPerPayer : ℕ) (m : Mempool) : Prop where
  tracked : m.Tracked
  counts : Counts m.perPayer m.queue
  paid : ∀ tx ∈ m.queue, tx.feePayer.isSome
  capacity_eq : m.capacity = capacity
  maxPerPayer_eq : m.maxPerPayer = max maxPerPayer 1
  length_le : m.queue.length ≤ capacity
  countOf_le : ∀ payer, countOf m.queue payer ≤ max maxPerPayer 1

section Sound

variable {capacity maxPerPayer : ℕ} {m : Mempool}

theorem sound_new (capacity maxPerPayer : ℕ) :
    (new capacity maxPerPayer).Sound capacity maxPerPayer where
  tracked := tracked_new ..
  counts _ := rfl
  paid := by simp [new]
  capacity_eq := rfl
  maxPerPayer_eq := rfl
  length_le := Nat.zero_le _
  countOf_le _ := Nat.zero_le _

theorem Sound.push (h : m.Sound capacity maxPerPayer) (tx : VersionedTransaction) :
    (m.push tx).1.Sound capacity maxPerPayer := by
  cases hresult : (m.push tx).2 with
  | error e => rwa [push_of_error hresult]
  | ok sig =>
    have htracked := tracked_push h.tracked tx
    obtain ⟨payer, hpayer, hlimit, hroom, heq⟩ := push_of_ok hresult
    rw [h.counts.getD_eq, h.maxPerPayer_eq] at hlimit
    rw [h.capacity_eq] at hroom
    rw [heq] at htracked ⊢
    refine ⟨htracked, counts_append h.counts hpayer, ?_, h.capacity_eq, h.maxPerPayer_eq, ?_, ?_⟩
    · intro t ht
      rcases List.mem_append.mp ht with ht | ht
      · exact h.paid t ht
      · rw [List.mem_singleton.mp ht, hpayer]
        rfl
    · rw [List.length_append, List.length_singleton]
      exact hroom
    · intro x
      have hx := h.countOf_le x
      have hcount :
          countOf (m.queue ++ [tx]) x = countOf m.queue x + if payer = x then 1 else 0 := by
        simp [countOf, hpayer]
      rw [hcount]
      split
      · rename_i heq
        subst heq
        exact hlimit
      · exact hx

theorem Sound.drain (h : m.Sound capacity maxPerPayer) (limit : ℕ) :
    (m.drain limit).1.Sound capacity maxPerPayer := by
  have hq := drain_queue m limit
  have hcounts := h.counts
  rw [← hq] at hcounts
  have hlimits := forget_limits { m with queue := m.queue.drop (min limit m.queue.length) }
    (m.drain limit).2
  refine ⟨tracked_drain h.tracked limit, counts_foldl_forget hcounts, ?_,
    hlimits.1.trans h.capacity_eq, hlimits.2.trans h.maxPerPayer_eq, ?_, ?_⟩
  · intro tx htx
    apply h.paid
    rw [← hq]
    exact List.mem_append_right _ htx
  · have hlength := h.length_le
    rw [← hq, List.length_append] at hlength
    omega
  · intro payer
    have hpayer := h.countOf_le payer
    rw [← hq, countOf, List.countP_append] at hpayer
    exact (Nat.le_add_left _ _).trans hpayer

theorem Sound.decrement_pos (h : m.Sound capacity maxPerPayer) {limit : ℕ}
    {before after : List VersionedTransaction} {tx : VersionedTransaction}
    (hdrained : (m.drain limit).2 = before ++ tx :: after) :
    ∃ payer count, tx.feePayer = some payer ∧ 0 < count ∧
      (before.foldl forget { m with queue := m.queue.drop (min limit m.queue.length) }).perPayer
        payer = some count := by
  have hq := drain_queue m limit
  have hcounts := h.counts
  rw [← hq, hdrained, List.append_assoc] at hcounts
  have htx : tx ∈ m.queue := by
    rw [← hq, hdrained]
    simp
  obtain ⟨payer, hpayer⟩ := Option.isSome_iff_exists.mp (h.paid tx htx)
  have hleft : Counts (before.foldl forget
      { m with queue := m.queue.drop (min limit m.queue.length) }).perPayer
      (tx :: (after ++ (m.drain limit).1.queue)) := counts_foldl_forget hcounts
  exact ⟨payer, _, hpayer, Nat.succ_pos _, hleft.pos hpayer⟩

end Sound

inductive Call
  | push (tx : VersionedTransaction)
  | drain (limit : ℕ)

/-- A mempool with the transactions it accepted and the ones drained from it. -/
structure Log where
  mempool : Mempool
  accepted : List VersionedTransaction
  drained : List VersionedTransaction

def Log.step (log : Log) : Call → Log
  | .push tx =>
    let (mempool, result) := log.mempool.push tx
    match result with
    | .ok _ => { log with mempool, accepted := log.accepted ++ [tx] }
    | .error _ => { log with mempool }
  | .drain limit =>
    let (mempool, drained) := log.mempool.drain limit
    { log with mempool, drained := log.drained ++ drained }

def runCalls (capacity maxPerPayer : ℕ) (calls : List Call) : Log :=
  calls.foldl Log.step ⟨new capacity maxPerPayer, [], []⟩

theorem Log.step_order {log : Log} (h : log.drained ++ log.mempool.queue = log.accepted)
    (call : Call) :
    (log.step call).drained ++ (log.step call).mempool.queue = (log.step call).accepted := by
  cases call with
  | push tx =>
    simp only [step]
    cases hresult : (log.mempool.push tx).2 with
    | error e =>
      dsimp only
      rw [push_of_error hresult, h]
    | ok sig =>
      obtain ⟨payer, -, -, -, heq⟩ := push_of_ok hresult
      dsimp only
      rw [heq, ← h, List.append_assoc]
  | drain limit =>
    simp only [step]
    rw [List.append_assoc, drain_queue, h]

theorem Log.step_sound {log : Log} {capacity maxPerPayer : ℕ}
    (h : log.mempool.Sound capacity maxPerPayer) (call : Call) :
    (log.step call).mempool.Sound capacity maxPerPayer := by
  cases call with
  | push tx =>
    have hpush := h.push tx
    simp only [step]
    cases (log.mempool.push tx).2 <;> exact hpush
  | drain limit => exact h.drain limit

theorem runCalls_sound (capacity maxPerPayer : ℕ) (calls : List Call) :
    let log := runCalls capacity maxPerPayer calls
    log.mempool.Sound capacity maxPerPayer ∧
      log.drained ++ log.mempool.queue = log.accepted := by
  induction calls using List.reverseRecOn with
  | nil => exact ⟨sound_new .., rfl⟩
  | append_singleton calls call ih =>
    simp only [runCalls, List.foldl_append, List.foldl_cons, List.foldl_nil]
    exact ⟨Log.step_sound ih.1 call, Log.step_order ih.2 call⟩

/-- After any calls the pending set and the counters are exactly those of the queue, the limits
hold, a refused push changes nothing, no decrement finds a counter at zero, and what was drained
followed by the queue is what was accepted, in order. -/
theorem mempool_invariant (capacity maxPerPayer : ℕ) (calls : List Call) :
    let log := runCalls capacity maxPerPayer calls
    let m := log.mempool
    (m.queue.map (·.signature)).Nodup ∧
      (∀ tx ∈ m.queue, tx.signature.isSome) ∧
      (∀ sig, sig ∈ m.pending ↔ some sig ∈ m.queue.map (·.signature)) ∧
      (∀ payer, m.perPayer payer =
        let count := m.queue.countP (·.feePayer = some payer)
        if count = 0 then none else some count) ∧
      m.queue.length ≤ capacity ∧
      (∀ payer, m.queue.countP (·.feePayer = some payer) ≤ max maxPerPayer 1) ∧
      (∀ limit before tx after, (m.drain limit).2 = before ++ tx :: after →
        ∃ payer count, tx.feePayer = some payer ∧ 0 < count ∧
          (before.foldl forget { m with queue := m.queue.drop (min limit m.queue.length) }).perPayer
            payer = some count) ∧
      (∀ tx e, (m.push tx).2 = .error e → (m.push tx).1 = m) ∧
      log.drained ++ m.queue = log.accepted := by
  intro log m
  obtain ⟨hsound, horder⟩ := runCalls_sound capacity maxPerPayer calls
  refine ⟨hsound.tracked.nodup, hsound.tracked.signed, hsound.tracked.mem_pending, hsound.counts,
    hsound.length_le, hsound.countOf_le, ?_, ?_, horder⟩
  · intro limit before tx after hdrained
    exact hsound.decrement_pos hdrained
  · intro tx e herror
    exact push_of_error herror

end Mempool

end Zul.Node
