import Zul.Node.Lifecycle
import Zul.Node.Run
import Zul.Store.BlockhashQueue

/-! # Chain integrity

The tip lives in memory, in the persisted queue and in the block table. Whatever fails and
whenever the process ends, the committed blocks are a linked chain from genesis without gaps, and
the tip in memory is the one a new process would restore.
-/

namespace Zul

namespace Node

open Bridge

variable (E : Env)

/-- The blockhash of a slot: the genesis hash, then the header hashes. -/
def blockhashAt (store : Store) : ℕ → H256
  | 0 => E.genesis.genesisHash E.prims
  | slot + 1 =>
    match store.getBlock (UInt64.ofNat (slot + 1)) with
    | some block => block.header.hash E.prims
    | none => Bytes.replicate 32 0

structure Linked (store : Store) (slot : UInt64) (block : Block) : Prop where
  slot_eq : block.header.slot = slot
  parentHash : block.header.parentHash = blockhashAt E store (slot.toNat - 1)
  transactionsRoot : block.header.transactionsRoot =
    Block.transactionsRoot E.prims E.serialize block.transactions
  transactionCount : block.header.transactionCount = UInt32.ofNat block.transactions.length
  transactionCount_exact : E.options.maxBlockTransactions < 2 ^ 32 →
    block.header.transactionCount.toNat = block.transactions.length

/-- The committed blocks are the slots from 1 to `n`, each linked to the one before. -/
structure ChainUpTo (store : Store) (n : ℕ) : Prop where
  lt : n < 2 ^ 64
  latestSlot : store.latestSlot = if n = 0 then none else some (UInt64.ofNat n)
  isSome_iff : ∀ slot, (store.getBlock slot).isSome ↔ 1 ≤ slot.toNat ∧ slot.toNat ≤ n
  linked : ∀ slot block, store.getBlock slot = some block → Linked E store slot block

def chainHashes (store : Store) (n : ℕ) : List (UInt64 × H256) :=
  (List.range (n + 1)).map fun slot => (UInt64.ofNat slot, blockhashAt E store slot)

/-- A store with a chain, its genesis and the queue of recent blockhashes. -/
structure SoundStore (store : Store) (n : ℕ) : Prop where
  chain : ChainUpTo E store n
  genesisHash : store.genesisHash = some (E.genesis.genesisHash E.prims)
  stateRoot : store.stateRoot.isSome
  queue : n ≠ 0 → store.blockhashQueue = some ⟨BLOCKHASH_QUEUE_CAPACITY,
    BlockhashQueue.newest BLOCKHASH_QUEUE_CAPACITY (chainHashes E store n)⟩

structure TipAt (store : Store) (n : ℕ) (tip : ChainTip) : Prop where
  slot : tip.slot = UInt64.ofNat n
  blockhash : tip.blockhash = blockhashAt E store n
  capacity : tip.queue.capacity = BLOCKHASH_QUEUE_CAPACITY
  entries : tip.queue.entries =
    BlockhashQueue.newest BLOCKHASH_QUEUE_CAPACITY (chainHashes E store n)
  indexed : ((chainHashes E store n).map Prod.snd).Nodup → tip.queue.Indexed

variable {E}

theorem chainHashes_succ (store : Store) (n : ℕ) :
    chainHashes E store (n + 1) =
      chainHashes E store n ++ [(UInt64.ofNat (n + 1), blockhashAt E store (n + 1))] := by
  rw [chainHashes, List.range_succ, List.map_append]
  rfl

theorem blockhashAt_congr {store store' : Store} {n : ℕ}
    (h : ∀ slot : ℕ, 1 ≤ slot → slot ≤ n →
      store'.getBlock (UInt64.ofNat slot) = store.getBlock (UInt64.ofNat slot)) {slot : ℕ}
    (hslot : slot ≤ n) : blockhashAt E store' slot = blockhashAt E store slot := by
  cases slot with
  | zero => rfl
  | succ slot => rw [blockhashAt, blockhashAt, h (slot + 1) (by omega) hslot]

theorem SoundStore.restoreTip {store : Store} {n : ℕ} (h : SoundStore E store n) (nowMs : UInt64) :
    ∃ tip, restoreTip E store nowMs = .ok tip ∧ TipAt E store n tip := by
  have hlatest := h.chain.latestSlot
  by_cases hn : n = 0
  · subst hn
    rw [if_pos rfl] at hlatest
    refine ⟨_, by rw [Node.restoreTip, hlatest], rfl, rfl, rfl, ?_, fun _ => ?_⟩
    · rw [BlockhashQueue.register_entries]
      rfl
    · refine BlockhashQueue.Indexed.register ?_ ?_
      · intro hash
        simp [BlockhashQueue.new, BlockhashQueue.withCapacity]
      · simp [BlockhashQueue.new, BlockhashQueue.withCapacity]
  · rw [if_neg hn] at hlatest
    have hslot : (UInt64.ofNat n).toNat = n := UInt64.toNat_ofNat_of_lt' h.chain.lt
    obtain ⟨block, hblock⟩ := Option.isSome_iff_exists.mp
      ((h.chain.isSome_iff (UInt64.ofNat n)).mpr (by omega))
    let saved : SerializedQueue := ⟨BLOCKHASH_QUEUE_CAPACITY,
      BlockhashQueue.newest BLOCKHASH_QUEUE_CAPACITY (chainHashes E store n)⟩
    have hqueue : store.loadBlockhashQueue = some (BlockhashQueue.fromBytes saved) := by
      rw [Store.loadBlockhashQueue, h.queue hn]
      rfl
    refine ⟨⟨BlockhashQueue.fromBytes saved, UInt64.ofNat n, block.header.hash E.prims, nowMs⟩, ?_,
      rfl, ?_, rfl, ?_, fun _ => BlockhashQueue.indexed_fromBytes _⟩
    · rw [Node.restoreTip, hlatest]
      simp only [hqueue, hblock]
    · obtain ⟨m, rfl⟩ := Nat.exists_eq_succ_of_ne_zero hn
      simp only [blockhashAt, hblock]
    · simp only [BlockhashQueue.fromBytes, saved]

theorem ofNat_ne_ofNat {a b : ℕ} (ha : a < 2 ^ 64) (hb : b < 2 ^ 64) (h : a ≠ b) :
    UInt64.ofNat a ≠ UInt64.ofNat b := by
  intro heq
  have := congrArg UInt64.toNat heq
  rw [UInt64.toNat_ofNat_of_lt' ha, UInt64.toNat_ofNat_of_lt' hb] at this
  exact h this

theorem getBlock_commit {store store' : Store} {tip : ChainTip} {choice : BlockChoice}
    {draft : BlockDraft} (h : commitOnly E choice store tip draft = .ok store') :
    store'.getBlock = store.blocks.insert (tip.slot + 1)
      (sealedBlock E choice store tip draft) := by
  rw [Store.commitBlock_frame h]
  rfl

theorem SoundStore.commit {store store' : Store} {n : ℕ} {tip : ChainTip} {choice : BlockChoice}
    {draft : BlockDraft} (h : SoundStore E store n) (ht : TipAt E store n tip)
    (hcount : draft.included.length ≤ E.options.maxBlockTransactions)
    (hcommit : commitOnly E choice store tip draft = .ok store') :
    SoundStore E store' (n + 1) ∧ TipAt E store' (n + 1) (nextTip E choice store tip draft) := by
  have hframe := Store.commitBlock_frame hcommit
  have hslot : (sealedBlock E choice store tip draft).header.slot = UInt64.ofNat (n + 1) := by
    show tip.slot + 1 = _
    rw [ht.slot, UInt64.ofNat_add]
    rfl
  have hlt : n + 1 < 2 ^ 64 := by
    have hn := h.chain.lt
    by_contra hge
    have hlatest : store.latestSlot = some (UInt64.ofNat n) := by
      rw [h.chain.latestSlot, if_neg (by omega)]
    have hgt := (Store.commitBlock_spec hcommit).slot_gt _ hlatest
    rw [hslot, UInt64.lt_iff_toNat_lt, UInt64.toNat_ofNat', UInt64.toNat_ofNat'] at hgt
    omega
  set block := sealedBlock E choice store tip draft with hblock
  have hblocks : store'.getBlock = store.blocks.insert (UInt64.ofNat (n + 1)) block := by
    rw [getBlock_commit hcommit, ← hslot]
    rfl
  have hold : ∀ slot : ℕ, 1 ≤ slot → slot ≤ n →
      store'.getBlock (UInt64.ofNat slot) = store.getBlock (UInt64.ofNat slot) := by
    intro slot _ hle
    rw [hblocks]
    exact PartialMap.insert_of_ne _ _ (ofNat_ne_ofNat (by omega) hlt (by omega))
  have hhashes : chainHashes E store' n = chainHashes E store n :=
    List.map_congr_left fun slot hs => by
      rw [blockhashAt_congr hold (by have := List.mem_range.mp hs; omega)]
  have hhash : blockhashAt E store' (n + 1) = block.header.hash E.prims := by
    simp only [blockhashAt, hblocks, PartialMap.insert_self]
  have hqueue : (nextTip E choice store tip draft).queue.entries =
      BlockhashQueue.newest BLOCKHASH_QUEUE_CAPACITY (chainHashes E store' (n + 1)) := by
    show (tip.queue.register block.header.slot _).entries = _
    rw [BlockhashQueue.register_entries, ht.capacity, ht.entries, BlockhashQueue.newest_append,
      chainHashes_succ, hhashes, hhash, hslot]
  have hcapacity : (nextTip E choice store tip draft).queue.capacity = BLOCKHASH_QUEUE_CAPACITY :=
    ht.capacity
  refine ⟨⟨⟨hlt, ?_, fun slot => ?_, fun slot b hb => ?_⟩, ?_, ?_, fun _ => ?_⟩,
    hslot, hhash.symm, hcapacity, hqueue, fun hnodup => ?_⟩
  · rw [hframe, if_neg (by omega), ← hslot]
  · rw [hblocks, PartialMap.insert_apply]
    split
    · rename_i heq
      rw [heq, UInt64.toNat_ofNat_of_lt' hlt]
      simp
    · rename_i hne
      have hne' : slot.toNat ≠ n + 1 := by
        intro heq
        exact hne (by rw [← heq, UInt64.ofNat_toNat])
      exact (h.chain.isSome_iff slot).trans (by omega)
  · rw [hblocks, PartialMap.insert_apply] at hb
    split at hb
    · rename_i heq
      cases hb
      subst heq
      refine ⟨hslot, ?_, rfl, rfl, fun hmax => ?_⟩
      · show tip.blockhash = _
        rw [UInt64.toNat_ofNat_of_lt' hlt, Nat.add_sub_cancel, ht.blockhash,
          blockhashAt_congr hold le_rfl]
      · show (UInt32.ofNat _).toNat = _
        refine UInt32.toNat_ofNat_of_lt' ?_
        show (draft.included.map Prod.fst).length < 2 ^ 32
        rw [List.length_map]
        omega
    · have hle := (h.chain.isSome_iff slot).mp (by rw [Store.getBlock, hb]; rfl)
      obtain ⟨h₁, h₂, h₃, h₄, h₅⟩ := h.chain.linked slot b hb
      exact ⟨h₁, by rw [h₂, blockhashAt_congr hold (by omega)], h₃, h₄, h₅⟩
  · rw [hframe]
    exact h.genesisHash
  · rw [hframe]
    rfl
  · have hsaved : store'.blockhashQueue =
        some (nextTip E choice store tip draft).queue.toBytes := by
      rw [hframe]
    rw [hsaved, BlockhashQueue.toBytes, hqueue, hcapacity]
  · rw [chainHashes_succ, hhashes] at hnodup
    have hnodup' := hnodup
    rw [List.map_append] at hnodup
    refine (ht.indexed hnodup.of_append_left).register ?_
    rw [hslot, ht.entries, ← hhash]
    have hsub : (BlockhashQueue.newest BLOCKHASH_QUEUE_CAPACITY (chainHashes E store n) ++
        [(UInt64.ofNat (n + 1), blockhashAt E store' (n + 1))]).Sublist (chainHashes E store n ++
        [(UInt64.ofNat (n + 1), blockhashAt E store' (n + 1))]) :=
      (List.drop_sublist _ _).append (List.Sublist.refl _)
    exact hnodup'.sublist (hsub.map _)

theorem blockhashAt_of_blocks {store store' : Store} (h : store'.blocks = store.blocks) :
    blockhashAt E store' = blockhashAt E store := by
  funext slot
  exact blockhashAt_congr (fun slot _ _ => congrFun h _) (le_refl slot)

theorem chainHashes_of_blocks {store store' : Store} (h : store'.blocks = store.blocks) :
    chainHashes E store' = chainHashes E store := by
  funext n
  rw [chainHashes, chainHashes, blockhashAt_of_blocks h]

theorem SoundStore.setRoot {store : Store} {n : ℕ} (h : SoundStore E store n) (root : Option H256) :
    SoundStore E { store with withdrawalsRootMeta := root } n := by
  have hat : blockhashAt E { store with withdrawalsRootMeta := root } = blockhashAt E store :=
    blockhashAt_of_blocks rfl
  have hhashes : chainHashes E { store with withdrawalsRootMeta := root } = chainHashes E store :=
    chainHashes_of_blocks rfl
  refine ⟨⟨h.chain.lt, h.chain.latestSlot, h.chain.isSome_iff, fun slot block hb => ?_⟩,
    h.genesisHash, h.stateRoot, ?_⟩
  · obtain ⟨h₁, h₂, h₃, h₄, h₅⟩ := h.chain.linked slot block hb
    exact ⟨h₁, by rw [h₂, hat], h₃, h₄, h₅⟩
  · rw [hhashes]
    exact h.queue

theorem TipAt.setRoot {store : Store} {n : ℕ} {tip : ChainTip} (h : TipAt E store n tip)
    (root : Option H256) : TipAt E { store with withdrawalsRootMeta := root } n tip := by
  have hat : blockhashAt E { store with withdrawalsRootMeta := root } = blockhashAt E store :=
    blockhashAt_of_blocks rfl
  have hhashes : chainHashes E { store with withdrawalsRootMeta := root } = chainHashes E store :=
    chainHashes_of_blocks rfl
  exact ⟨h.slot, by rw [hat, h.blockhash], h.capacity, by rw [hhashes, h.entries],
    by rw [hhashes]; exact h.indexed⟩

theorem chainUpTo_of_noBlocks {store : Store} (hblocks : store.blocks = fun _ => none)
    (hlatest : store.latestSlot = none) : ChainUpTo E store 0 := by
  have hnone : ∀ slot, store.getBlock slot = none := fun slot => congrFun hblocks slot
  refine ⟨by decide, hlatest, fun slot => ?_, fun slot block hb => ?_⟩
  · rw [hnone]
    simp only [Option.isSome_none, Bool.false_eq_true, false_iff]
    omega
  · rw [hnone] at hb
    cases hb

theorem SoundStore.initializeGenesis {store : Store} {n : ℕ} (h : SoundStore E store n)
    (extra : List (Pubkey × StoredAccount)) :
    store.initializeGenesis E.prims E.genesis extra = .ok store := by
  simp only [Store.initializeGenesis, h.genesisHash]
  rw [if_neg (by simp), if_pos h.stateRoot]

theorem soundStore_genesis {store store' : Store} {n : ℕ} {extra : List (Pubkey × StoredAccount)}
    (hstore : (store = Store.empty ∧ n = 0) ∨ SoundStore E store n)
    (h : store.initializeGenesis E.prims E.genesis extra = .ok store') : SoundStore E store' n := by
  rcases hstore with ⟨rfl, rfl⟩ | hsound
  · cases h
    exact ⟨chainUpTo_of_noBlocks rfl rfl, rfl, rfl, fun h => absurd rfl h⟩
  · rw [hsound.initializeGenesis] at h
    cases h
    exact hsound

theorem SoundStore.boot {store : Store} {n : ℕ} (h : SoundStore E store n) (nowMs : UInt64) :
    ∃ node, boot E store nowMs = .ok node ∧ TipAt E store n node.tip := by
  obtain ⟨tip, hrestore, htip⟩ := h.restoreTip nowMs
  have hgenesis := h.initializeGenesis (E.genesisAccounts ++
    [(E.poolConfig.poolState, Privacy.PoolService.genesisPoolAccount E.prims)])
  cases hboot : Node.boot E store nowMs with
  | error e =>
    rw [Node.boot] at hboot
    simp [hgenesis, hrestore] at hboot
  | ok node =>
    obtain ⟨store', hgenesis', hrestore', -⟩ := boot_cases hboot
    rw [hgenesis] at hgenesis'
    cases hgenesis'
    rw [hrestore] at hrestore'
    cases hrestore'
    exact ⟨node, rfl, htip⟩

theorem TipAt.isValid_eq {store : Store} {n : ℕ} {tip tip' : ChainTip} (h : TipAt E store n tip)
    (h' : TipAt E store n tip') (hnodup : ((chainHashes E store n).map Prod.snd).Nodup)
    (hash : H256) : tip'.queue.isValid hash = tip.queue.isValid hash := by
  rw [Bool.eq_iff_iff, BlockhashQueue.isValid, BlockhashQueue.isValid, h.indexed hnodup hash,
    h'.indexed hnodup hash, h.entries, h'.entries]

theorem length_included_le {choice : BlockChoice} {node : Node} {draft : BlockDraft} {store : Store}
    (h : Commits E choice node draft store) :
    draft.included.length ≤ E.options.maxBlockTransactions := by
  have hsub := (draftBlock_included h.drafted).1.length_le
  rw [List.length_map] at hsub
  refine hsub.trans ?_
  simp only [drainForBlock, Mempool.drain, List.length_take]
  omega

/-- Every store reached is empty or holds a chain of the blocks committed, and a running node's tip
is at its end. -/
theorem Lived.sound {life : Life} {drafts : List BlockDraft} (lived : Lived E life drafts) :
    (life.store = Store.empty ∧ drafts = [] ∧ ∀ node pending, life ≠ .up node pending) ∨
      SoundStore E life.store drafts.length ∧
        ∀ node pending, life = .up node pending → TipAt E life.store drafts.length node.tip := by
  induction lived with
  | start => exact .inl ⟨rfl, rfl, by simp⟩
  | @step life life' drafts event lived h ih =>
    cases h.effect with
    | silent up hdrafts store_eq tree tip =>
      subst up
      rw [hdrafts, List.append_nil]
      rcases ih with ⟨-, -, hdown⟩ | ⟨hsound, htip⟩
      · exact absurd rfl (hdown _ _)
      · rw [store_eq]
        refine .inr ⟨hsound.setRoot _, fun node' pending' hup => ?_⟩
        rw [tip node' pending' hup]
        exact (htip _ _ rfl).setRoot _
    | commit up event_eq hcommits next =>
      subst up event_eq next
      obtain ⟨-, -, hdown⟩ | ⟨hsound, htip⟩ := ih
      · exact absurd rfl (hdown _ _)
      · obtain ⟨hsound', htip'⟩ := hsound.commit (htip _ _ rfl) (length_included_le hcommits)
          hcommits.committed
        rw [List.length_append]
        refine .inr ⟨hsound', ?_⟩
        rintro _ _ ⟨⟩
        exact htip'
    | opened hdrafts hgenesis store_eq tree tip =>
      rw [hdrafts, List.append_nil]
      have hsound := soundStore_genesis
        (ih.imp (fun h => ⟨h.1, by rw [h.2.1]; rfl⟩) And.left) hgenesis
      rw [store_eq]
      refine .inr ⟨hsound.setRoot _, fun node' pending' hup => ?_⟩
      obtain ⟨nowMs, hrestored⟩ := tip node' pending' hup
      obtain ⟨tip', hrestore, htip⟩ := hsound.restoreTip nowMs
      rw [hrestored] at hrestore
      cases hrestore
      exact htip.setRoot _

theorem Lived.chain {life : Life} {drafts : List BlockDraft} {node : Node} {pending : Option H256}
    (lived : Lived E life drafts) (up : life = .up node pending) :
    SoundStore E node.store drafts.length := by
  subst up
  rcases lived.sound with ⟨-, -, hdown⟩ | ⟨hsound, -⟩
  · exact absurd rfl (hdown node pending)
  · exact hsound

/-- The committed blocks are a linked chain from genesis without gaps, and the tip of a running
node is the one a new process would restore from its store. -/
theorem chain_integrity {life : Life} {drafts : List BlockDraft} (lived : Lived E life drafts) :
    ∃ n, ChainUpTo E life.store n ∧ ∀ node pending, life = .up node pending → ∀ nowMs,
      ∃ restored, boot E node.store nowMs = .ok restored ∧ restored.tip.slot = node.tip.slot ∧
        restored.tip.blockhash = node.tip.blockhash ∧
        (((chainHashes E node.store n).map Prod.snd).Nodup →
          ∀ hash, restored.tip.queue.isValid hash = node.tip.queue.isValid hash) := by
  rcases lived.sound with ⟨hempty, -, hdown⟩ | ⟨hsound, htip⟩
  · refine ⟨0, ?_, fun node pending hup => absurd hup (hdown node pending)⟩
    rw [hempty]
    exact chainUpTo_of_noBlocks rfl rfl
  · refine ⟨_, hsound.chain, fun node pending hup nowMs => ?_⟩
    subst hup
    have htip := htip node pending rfl
    obtain ⟨restored, hboot, htip'⟩ := hsound.boot nowMs
    exact ⟨restored, hboot, by rw [htip.slot, htip'.slot], by rw [htip.blockhash, htip'.blockhash],
      fun hnodup hash => htip.isValid_eq htip' hnodup hash⟩

/-- A process that ends right after committing the first block is succeeded by one whose tip is
that block. -/
theorem chain_integrity_crash :
    ∃ store withdrawals drafts, Lived Sample.env (.down store withdrawals) drafts ∧
      (store.getBlock 1).isSome ∧ ∃ n, ChainUpTo Sample.env store n := by
  obtain ⟨order⟩ := Privacy.MapOrder.nonempty
  obtain ⟨node, hboot, -, -, hlatest, htip, hmempool, hdeposits, -⟩ := boot_empty Sample.env 0
  obtain ⟨writes, -, hdraft, -⟩ := draftBlock_deposits Sample.env ⟨0, order⟩ node.store node.tip []
  have hdraft := hdraft writes [] rfl
  have hdrained : (drainForBlock Sample.env node).2 = ([], []) := by
    have hqueue : node.mempool.queue = [] := by
      rw [hmempool]
      rfl
    simp only [drainForBlock, hdeposits, Mempool.drain_of_queue_nil hqueue]
  obtain ⟨store, hstore⟩ := commitOnly_isOk (E := Sample.env) ⟨0, order⟩ node.store node.tip
    ⟨writes, [], [], [], []⟩ (fun latest h => by cases hlatest.symm.trans h) (by simp)
  have hlived : Lived Sample.env (.down store _) _ :=
    ((Lived.start.step (.boot hboot)).step
      (.commit ⟨by rw [hdrained]; exact hdraft, hstore⟩)).step (.stop _ _)
  obtain ⟨n, hchain, -⟩ := chain_integrity hlived
  refine ⟨store, _, _, hlived, ?_, n, hchain⟩
  have hslot : node.tip.slot + 1 = 1 := by
    rw [htip]
    rfl
  rw [getBlock_commit hstore, hslot, PartialMap.insert_self]
  rfl

end Node

end Zul
