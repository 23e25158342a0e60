import Zul.Node.PostedRoot
import Zul.Node.Routing
import Zul.Store.StateProofs

/-! # Claims against posted roots

The authority posts roots that the node had at some moment, and anyone may claim against any posted
root with any proof. A proof that verifies leads down to a leaf of the tree behind the root, unless
two of the strings hashed on the way collide. So every claim that goes through matches a withdrawal
the L2 accepted, and its claim account keeps it from being paid twice.
-/

namespace Zul.Node

open Bridge Settlement Smt WithdrawSmt

variable {P : Prims} {E : Env}

/-! ## Hashed strings -/

def commitmentInput (recipient assetId : Bytes 32) (amount nonce : UInt64) : List UInt8 :=
  strBytes "PL2:bridge:withdraw:v1" ++
    [recipient.toList, assetId.toList, LittleEndian.u64 amount, LittleEndian.u64 nonce].flatten

theorem commitmentInput_inj {recipient assetId recipient' assetId' : Bytes 32}
    {amount nonce amount' nonce' : UInt64}
    (h : commitmentInput recipient assetId amount nonce =
      commitmentInput recipient' assetId' amount' nonce') :
    recipient = recipient' ∧ assetId = assetId' ∧ amount = amount' ∧ nonce = nonce' := by
  have h := List.append_cancel_left h
  simp only [List.flatten_cons, List.flatten_nil, List.append_nil] at h
  obtain ⟨hrecipient, h⟩ := List.append_inj h (by simp)
  obtain ⟨hasset, h⟩ := List.append_inj h (by simp)
  obtain ⟨hamount, hnonce⟩ := List.append_inj h (by simp)
  exact ⟨Bytes.ext hrecipient, Bytes.ext hasset, LittleEndian.u64_injective hamount,
    LittleEndian.u64_injective hnonce⟩

/-! ## Proofs of a leaf -/

def proofHashed (P : Prims) (leaf : Pubkey × H256) (proof : SmtProof) : List (List UInt8) :=
  leafInput leaf :: ((shallow P).walk proof.bitmap.toList (keyPath P leaf.1) WITHDRAW_DEPTH
    proof.siblings (leafHash P leaf.1 leaf.2)).map nodeInput

/-- The strings behind a tree of leaves: the leaves, and the nodes on a path. -/
def leavesHashed (P : Prims) (leaves : List (Pubkey × H256)) (path : H256) : List (List UInt8) :=
  emptyInput :: leaves.map leafInput ++ (List.range WITHDRAW_DEPTH).map fun d =>
    nodeInput ((shallow P).children (applyAll P leaves) d path)

theorem stands_or_collision {leaves : List (Pubkey × H256)} {leaf : Pubkey × H256}
    {proof : SmtProof}
    (h : WithdrawSmt.verify P (WithdrawSmt.root P (applyAll P leaves)) leaf.1 leaf.2 proof = true) :
    Stands P leaves leaf ∨
      Collision P (proofHashed P leaf proof ++ leavesHashed P leaves (keyPath P leaf.1)) := by
  have hleafMem : leafInput leaf ∈
      proofHashed P leaf proof ++ leavesHashed P leaves (keyPath P leaf.1) :=
    List.mem_append_left _ List.mem_cons_self
  rw [WithdrawSmt.verify, WithdrawSmt.root,
    (shallow_lawful P).read_root _ _ (keyPath P leaf.1)] at h
  rcases SparseTree.verify_sound (consistent_applyAll leaves) h with hleaf | ⟨a, ha, d,
    hd, hne, heq⟩
  · rcases read_applyAll_cases (P := P) leaves (keyPath P leaf.1) with
      hempty | ⟨leaf', hstands, -, hread⟩
    · refine .inr ⟨_, hleafMem, emptyInput, List.mem_append_right _ List.mem_cons_self,
        leafInput_ne_emptyInput _, ?_⟩
      exact hleaf.trans hempty
    · by_cases hsame : leafInput leaf = leafInput leaf'
      · rw [leafInput_injective hsame]
        exact .inl hstands
      · refine .inr ⟨_, hleafMem, leafInput leaf', List.mem_append_right _ ?_, hsame,
          hleaf.trans hread⟩
        exact List.mem_append_left _ (List.mem_cons_of_mem _ (List.mem_map_of_mem hstands.mem))
  · refine .inr ⟨nodeInput a, ?_, nodeInput ((shallow P).children (applyAll P leaves) d
      (keyPath P leaf.1)), ?_, fun hstring => hne (nodeInput_injective hstring), heq⟩
    · exact List.mem_append_left _ (List.mem_cons_of_mem _ (List.mem_map_of_mem ha))
    · exact List.mem_append_right _ (List.mem_append_right _
        (List.mem_map.mpr ⟨d, List.mem_range.mpr hd, rfl⟩))

/-! ## Claims and the withdrawals they match -/

structure Payout where
  asset : L1Asset
  recipient : Bytes 32
  amount : UInt64
  nonce : UInt64
  proof : SmtProof

namespace Payout

def leaf (P : Prims) (c : Payout) : Pubkey × H256 :=
  claimedLeaf P c.asset c.recipient c.amount c.nonce

def path (P : Prims) (c : Payout) : H256 := keyPath P (c.leaf P).1

/-- A claim with the recipient, asset, amount and nonce of a withdrawal. -/
def Matches (c : Payout) (w : WithdrawTx) : Prop :=
  w.recipient = c.recipient ∧ w.assetId = c.asset.assetId ∧ w.amount = c.amount ∧ w.nonce = c.nonce

/-- The strings the program hashes from the claim's fields up to the root. -/
def hashed (P : Prims) (c : Payout) : List (List UInt8) :=
  commitmentInput c.recipient c.asset.assetId c.amount c.nonce :: leafInput (c.leaf P) ::
    ((shallow P).walk c.proof.bitmap.toList (c.path P) WITHDRAW_DEPTH c.proof.siblings
      (leafHash P (c.leaf P).1 (c.leaf P).2)).map nodeInput

end Payout

/-- The strings behind the tree of some withdrawals: its leaves, and its nodes on a path. -/
def treeHashed (P : Prims) (accepted : List WithdrawTx) (path : H256) : List (List UInt8) :=
  emptyInput ::
    (accepted.flatMap fun w =>
      [commitmentInput w.recipient w.assetId w.amount w.nonce, leafInput (w.leaf P)]) ++
    (List.range WITHDRAW_DEPTH).map fun d =>
      nodeInput ((shallow P).children (insertLeaves P (fun _ => none) accepted) d path)

theorem insertLeaves_eq_applyAll (accepted : List WithdrawTx) :
    insertLeaves P (fun _ => none) accepted = applyAll P (accepted.map (·.leaf P)) := by
  rw [applyAll, List.foldl_map]
  rfl

/-- A claim proved under the root of a tree of withdrawals matches one of them, or two of the hashed
strings collide. -/
theorem matches_or_collision {accepted : List WithdrawTx} {c : Payout}
    (h : WithdrawSmt.verify P (WithdrawSmt.root P (insertLeaves P (fun _ => none) accepted))
      (c.leaf P).1 (c.leaf P).2 c.proof = true) :
    (∃ w ∈ accepted, c.Matches w) ∨
      Collision P (c.hashed P ++ treeHashed P accepted (c.path P)) := by
  have hstrings : ∀ w ∈ accepted, ∀ s ∈ [commitmentInput w.recipient w.assetId w.amount w.nonce,
      leafInput (w.leaf P)], s ∈ c.hashed P ++ treeHashed P accepted (c.path P) := by
    intro w hw s hs
    refine List.mem_append_right _ (List.mem_append_left _ (List.mem_cons_of_mem _ ?_))
    exact List.mem_flatMap.mpr ⟨w, hw, hs⟩
  rw [insertLeaves_eq_applyAll] at h
  rcases stands_or_collision h with hstands | hfound
  · obtain ⟨w, hw, hleaf⟩ := List.mem_map.mp hstands.mem
    have hcommitment : P.blake3 (commitmentInput c.recipient c.asset.assetId c.amount c.nonce) =
        P.blake3 (commitmentInput w.recipient w.assetId w.amount w.nonce) :=
      congrArg Prod.snd hleaf.symm
    by_cases hfields : commitmentInput c.recipient c.asset.assetId c.amount c.nonce =
        commitmentInput w.recipient w.assetId w.amount w.nonce
    · obtain ⟨hrecipient, hasset, hamount, hnonce⟩ := commitmentInput_inj hfields
      exact .inl ⟨w, hw, hrecipient.symm, hasset.symm, hamount.symm, hnonce.symm⟩
    · exact .inr ⟨_, List.mem_append_left _ List.mem_cons_self, _,
        hstrings w hw _ List.mem_cons_self, hfields, hcommitment⟩
  · refine .inr (hfound.mono ?_)
    intro s hs
    simp only [proofHashed, leavesHashed, List.mem_append, List.mem_cons, List.mem_map] at hs
    rcases hs with (rfl | hwalk) | (rfl | ⟨_, ⟨w, hw, rfl⟩, rfl⟩) | ⟨d, hd, rfl⟩
    · exact List.mem_append_left _ (List.mem_cons_of_mem _ List.mem_cons_self)
    · exact List.mem_append_left _ (List.mem_cons_of_mem _ (List.mem_cons_of_mem _
        (List.mem_map.mpr hwalk)))
    · exact List.mem_append_right _ List.mem_cons_self
    · exact hstrings w hw _ (List.mem_cons_of_mem _ List.mem_cons_self)
    · rw [← insertLeaves_eq_applyAll]
      exact List.mem_append_right _ (List.mem_append_right _ (List.mem_map.mpr ⟨d, hd, rfl⟩))

/-! ## Roots the node had -/

def Historic (P : Prims) (drafts : List BlockDraft) (root : H256) : Prop :=
  ∃ n ≤ drafts.length, root = WithdrawSmt.root P (settledTree P (drafts.take n))

theorem Historic.append {drafts : List BlockDraft} {root : H256} (h : Historic P drafts root)
    (more : List BlockDraft) : Historic P (drafts ++ more) root := by
  obtain ⟨n, hn, hroot⟩ := h
  refine ⟨n, ?_, ?_⟩
  · rw [List.length_append]
    exact hn.trans (Nat.le_add_right _ _)
  · rw [List.take_append_of_le_length hn, hroot]

theorem historic_settledTree (P : Prims) (drafts : List BlockDraft) :
    Historic P drafts (WithdrawSmt.root P (settledTree P drafts)) :=
  ⟨drafts.length, le_rfl, by rw [List.take_length]⟩

/-- The tree has the withdrawals of all blocks, and the stored root is or was its root. -/
structure Known (P : Prims) (life : Life) (drafts : List BlockDraft) : Prop where
  tree : life.withdrawals = settledTree P drafts
  stored : ∀ node pending, life = .up node pending →
    Historic P drafts node.store.withdrawalsRoot ∧ ∀ root ∈ pending, Historic P drafts root

theorem known_down {P : Prims} {store : Store} {withdrawals : PartialMap NodeKey H256}
    {drafts : List BlockDraft}
    (htree : withdrawals = settledTree P drafts) : Known P (.down store withdrawals) drafts := by
  refine ⟨htree, ?_⟩
  intro node pending h
  cases h

theorem known_up {P : Prims} {node : Node} {pending : Option H256} {drafts : List BlockDraft}
    (htree : node.withdrawals = settledTree P drafts)
    (hstored : Historic P drafts node.store.withdrawalsRoot)
    (hpending : ∀ root, pending = some root → Historic P drafts root) :
    Known P (.up node pending) drafts := by
  refine ⟨htree, ?_⟩
  rintro _ _ ⟨⟩
  exact ⟨hstored, hpending⟩

theorem known_idle {P : Prims} {node : Node} {drafts : List BlockDraft}
    (htree : node.withdrawals = settledTree P drafts)
    (hstored : Historic P drafts node.store.withdrawalsRoot) : Known P (.up node none) drafts := by
  refine known_up htree hstored ?_
  intro root h
  cases h

theorem Lived.reopened {life : Life} {drafts : List BlockDraft} {store : Store}
    (lived : Lived E life drafts) (hnodup : (committedSignatures life.store).Nodup)
    (hgenesis : life.store.initializeGenesis E.prims E.genesis (E.genesisAccounts ++
      [(E.poolConfig.poolState, Privacy.PoolService.genesisPoolAccount E.prims)]) = .ok store) :
    rebuildWithdrawals E.prims store = life.withdrawals := by
  have hlive := (lived.rebuilt hnodup).2
  rcases lived.sound with ⟨hempty, -⟩ | ⟨hsound, -⟩
  · rw [hempty] at hgenesis hlive
    cases hgenesis
    exact hlive
  · rw [hsound.initializeGenesis] at hgenesis
    cases hgenesis
    exact hlive

theorem Known.step {life life' : Life} {drafts : List BlockDraft} {event : LifeEvent}
    (h : Known E.prims life drafts) (lived : Lived E life drafts)
    (hstep : LifeStep E life event life')
    (fresh : event = .boot → (committedSignatures life.store).Nodup) :
    Known E.prims life' (drafts ++ event.drafts) := by
  have hsame : ∀ {life'' : Life}, Known E.prims life'' drafts →
      Known E.prims life'' (drafts ++ []) := by
    intro life'' h
    rwa [List.append_nil]
  cases hstep with
  | @commit choice node draft store hcommits =>
    obtain ⟨hstored, -⟩ := h.stored _ _ rfl
    have htree : insertLeaves E.prims node.withdrawals draft.accepted =
        settledTree E.prims (drafts ++ [draft]) := by
      rw [settledTree_concat, ← h.tree]
      rfl
    apply known_up htree
    · show Historic E.prims (drafts ++ [draft]) store.withdrawalsRoot
      rw [Store.commitBlock_frame hcommits.committed]
      exact hstored.append [draft]
    · intro root hroot
      rw [rootToWrite, htree] at hroot
      split at hroot
      · cases hroot
      · cases hroot
        exact historic_settledTree _ _
  | setRoot node root =>
    obtain ⟨-, hpending⟩ := h.stored _ _ rfl
    exact hsame (known_idle h.tree (hpending root rfl))
  | rootLost node root =>
    obtain ⟨hstored, -⟩ := h.stored _ _ rfl
    exact hsame (known_idle h.tree hstored)
  | fail node =>
    obtain ⟨hstored, -⟩ := h.stored _ _ rfl
    exact hsame (known_idle h.tree hstored)
  | enqueue node pending mempool pendingDeposits =>
    obtain ⟨hstored, hpending⟩ := h.stored _ _ rfl
    exact hsame (known_up h.tree hstored hpending)
  | stop node pending => exact hsame (known_down h.tree)
  | @boot store withdrawals nowMs node hboot =>
    obtain ⟨store', hgenesis, -, hrebuilt, hstore, -, -⟩ := boot_cases hboot
    have htree : node.withdrawals = settledTree E.prims drafts := by
      rw [hrebuilt, lived.reopened (fresh rfl) hgenesis]
      exact h.tree
    refine hsame (known_idle htree ?_)
    rw [hstore, htree]
    exact historic_settledTree _ _
  | bootFail hgenesis => exact hsame (known_down h.tree)

/-! ## The bridge -/

/-- The L2 process, the authority with the roots it has read, and L1. -/
structure BridgeState where
  life : Life
  /-- The blocks committed so far. -/
  drafts : List BlockDraft
  /-- The withdrawals roots read from the node. -/
  read : List H256
  batches : BatchAccounts
  program : ProgramState
  /-- The claims that went through. -/
  paid : List Payout

/-- An empty database and a settlement program that was just set up. -/
def BridgeState.start (authority : Pubkey) : BridgeState :=
  ⟨.down Store.empty fun _ => none, [], [], .initialized authority,
    ⟨0, fun _ => none, fun _ => none, fun _ => 0⟩, []⟩

inductive BridgeStep (E : Env) : BridgeState → BridgeState → Prop
  /-- The L2 produces blocks. A new process is started only on a store in which no signature was
  included twice. -/
  | life {s : BridgeState} {life' : Life} {event : LifeEvent} (h : LifeStep E s.life event life')
      (fresh : event = .boot → (committedSignatures s.life.store).Nodup) :
      BridgeStep E s { s with life := life', drafts := s.drafts ++ event.drafts }
  /-- The authority reads the root of the live tree, or the one in the store. -/
  | read {s : BridgeState} {node : Node} {pending : Option H256} {root : H256}
      (up : s.life = .up node pending)
      (h : root = WithdrawSmt.root E.prims node.withdrawals ∨ root = node.store.withdrawalsRoot) :
      BridgeStep E s { s with read := s.read ++ [root] }
  /-- The authority posts a batch with a root it has read. -/
  | post {s : BridgeState} {record : BatchRecord} {batches : BatchAccounts}
      (root : record.withdrawalsRoot ∈ s.read)
      (h : s.batches.postBatch s.batches.authority record = .ok batches) :
      BridgeStep E s { s with
        batches
        program := { s.program with withdrawalsRoots :=
          s.program.withdrawalsRoots.insert record.batchNo record.withdrawalsRoot } }
  | depositSol {s : BridgeState} {depositor l2Recipient : Pubkey} {amount : UInt64}
      {program : ProgramState} {event : Deposited}
      (h : depositSol s.program depositor amount l2Recipient = .ok (program, event)) :
      BridgeStep E s { s with program }
  | depositSpl {s : BridgeState} {depositor l2Recipient : Pubkey} {mint : Mint} {decimals : UInt8}
      {safe : Bool} {amount received : UInt64} {program : ProgramState} {event : Deposited}
      (h : depositSpl s.program depositor mint decimals safe amount received l2Recipient =
        .ok (program, event)) :
      BridgeStep E s { s with program }
  /-- Anyone claims, of SOL or of a token. -/
  | claim {s : BridgeState} {batchNo : UInt64} {c : Payout} {program : ProgramState}
      (h : claim E.prims c.asset s.program batchNo c.recipient c.amount c.nonce c.proof =
        .ok program) :
      BridgeStep E s { s with program, paid := s.paid ++ [c] }

inductive BridgeRun (E : Env) : BridgeState → Prop
  | start (authority : Pubkey) : BridgeRun E (.start authority)
  | step {s s' : BridgeState} (run : BridgeRun E s) (h : BridgeStep E s s') : BridgeRun E s'

/-! ## The driver as the authority -/

/-- The bridge and the world of the driver share the process and the batches on L1, and the record
the driver is about to post carries a root that was read. -/
structure Follows (s : BridgeState) (w : World) : Prop where
  life : s.life = w.life
  drafts : s.drafts = w.drafts
  batches : s.batches = w.batches
  ready : ∀ b a record, w.thread = .recordReady b a record → record.withdrawalsRoot ∈ s.read

theorem Follows.step {D : Driver} {s : BridgeState} {w w' : World} {event : WorldEvent}
    (h : Follows s w) (hstep : WorldStep E D w event w')
    (fresh : event = .life .boot → (committedSignatures w.life.store).Nodup) :
    ∃ s', (s' = s ∨ BridgeStep E s s') ∧ Follows s' w' := by
  cases hstep with
  | @life life' event hlife =>
    rw [← h.life] at hlife fresh
    refine ⟨_, .inr (.life hlife fun heq => fresh (congrArg _ heq)), rfl, ?_, h.batches, ?_⟩
    · rw [h.drafts]
    · intro b a record hthread
      cases life' with
      | up node pending => exact h.ready b a record hthread
      | down store withdrawals => cases hthread
  | @readRoot node pending b a up hpub =>
    refine ⟨_, .inr (.read (h.life.trans up) (.inr rfl)), h.life, h.drafts, h.batches, ?_⟩
    rintro _ _ _ ⟨⟩
    exact List.mem_append_right _ (List.mem_singleton_self _)
  | @recordPosted b a record batches ok hready accepted =>
    have hread := h.ready b a record hready
    rw [BatchAccounts.signer_of_postBatch accepted, ← h.batches] at accepted
    refine ⟨_, .inr (.post hread accepted), h.life, h.drafts, rfl, ?_⟩
    intro b' a' record' hthread
    cases ok with
    | false => cases hthread
    | true =>
      cases hposted : b.posted a.payload.lastSlot <;> rw [hposted] at hthread <;> cases hthread
  | @scan node pending b tip up hread =>
    refine ⟨s, .inl rfl, h.life, h.drafts, h.batches, fun b' a' record' hthread => ?_⟩
    rw [afterScan] at hthread
    split at hthread
    · cases hthread
    · cases hcollect : b.collect node.store tip <;> rw [hcollect] at hthread
      · cases hskip : b.skip tip <;> rw [hskip] at hthread <;> cases hthread
      · cases hthread
  | @chunkPosted b a sent chunk ok hpub hchunk hlen accepted =>
    refine ⟨s, .inl rfl, h.life, h.drafts, h.batches, fun b' a' record' hthread => ?_⟩
    cases ok <;> cases hthread
  | foreign entry => exact ⟨s, .inl rfl, h.life, h.drafts, h.batches, h.ready⟩
  | _ => exact ⟨s, .inl rfl, h.life, h.drafts, h.batches, fun _ _ _ hthread => by cases hthread⟩

/-- The driver posts as the authority of the bridge does, in every run in which a new process finds
no signature included twice. -/
theorem Runs.follows {D : Driver} {w : World}
    (runs : Runs E D (fun w event => event = .life .boot →
      (committedSignatures w.life.store).Nodup) w) :
    ∃ s, BridgeRun E s ∧ Follows s w := by
  induction runs with
  | start authority => exact ⟨_, .start authority, rfl, rfl, rfl, nofun⟩
  | step runs meets h ih =>
    obtain ⟨s, run, hfollows⟩ := ih
    obtain ⟨s', rfl | hstep, hfollows'⟩ := hfollows.step h meets
    · exact ⟨s', run, hfollows'⟩
    · exact ⟨s', run.step hstep, hfollows'⟩

def Proved (P : Prims) (drafts : List BlockDraft) (c : Payout) : Prop :=
  ∃ root, Historic P drafts root ∧
    WithdrawSmt.verify P root (c.leaf P).1 (c.leaf P).2 c.proof = true

theorem Proved.append {drafts : List BlockDraft} {c : Payout} (h : Proved P drafts c)
    (more : List BlockDraft) : Proved P (drafts ++ more) c := by
  obtain ⟨root, hroot, hverify⟩ := h
  exact ⟨root, hroot.append more, hverify⟩

structure ClaimsBacked (E : Env) (s : BridgeState) : Prop where
  lived : Lived E s.life s.drafts
  known : Known E.prims s.life s.drafts
  read : ∀ root ∈ s.read, Historic E.prims s.drafts root
  posted : ∀ n root, s.program.withdrawalsRoots n = some root → Historic E.prims s.drafts root
  proved : ∀ c ∈ s.paid, Proved E.prims s.drafts c
  /-- Every claim that went through has its account. -/
  marked : ∀ c ∈ s.paid, (s.program.claims (c.recipient, c.nonce)).isSome
  once : (s.paid.map fun c => (c.recipient, c.nonce)).Nodup

theorem claimsBacked_start (E : Env) (authority : Pubkey) : ClaimsBacked E (.start authority) where
  lived := .start
  known := ⟨rfl, nofun⟩
  read := nofun
  posted := nofun
  proved := nofun
  marked := nofun
  once := List.nodup_nil

theorem ClaimsBacked.step {s s' : BridgeState} (h : ClaimsBacked E s) (hstep : BridgeStep E s s') :
    ClaimsBacked E s' := by
  cases hstep with
  | @life life' event hlife fresh =>
    exact ⟨h.lived.step hlife, h.known.step h.lived hlife fresh,
      fun root hroot => (h.read root hroot).append _,
      fun n root hroot => (h.posted n root hroot).append _,
      fun c hc => (h.proved c hc).append _, h.marked, h.once⟩
  | @read node pending root up hroot =>
    refine ⟨h.lived, h.known, ?_, h.posted, h.proved, h.marked, h.once⟩
    intro root' hroot'
    rcases List.mem_append.mp hroot' with hold | hnew
    · exact h.read root' hold
    · rw [List.mem_singleton.mp hnew]
      rcases hroot with rfl | rfl
      · have htree := h.known.tree
        rw [up] at htree
        rw [show node.withdrawals = _ from htree]
        exact historic_settledTree _ _
      · exact (h.known.stored node pending up).1
  | @post record batches hread hpost =>
    refine ⟨h.lived, h.known, h.read, ?_, h.proved, h.marked, h.once⟩
    intro n root hroot
    change s.program.withdrawalsRoots.insert record.batchNo record.withdrawalsRoot n = some root
      at hroot
    rw [PartialMap.insert_apply] at hroot
    split at hroot
    · cases hroot
      exact h.read _ hread
    · exact h.posted n root hroot
  | depositSol hdeposit =>
    obtain ⟨hroots, hclaims⟩ := depositSol_frame hdeposit
    exact ⟨h.lived, h.known, h.read, hroots ▸ h.posted, h.proved, hclaims ▸ h.marked, h.once⟩
  | depositSpl hdeposit =>
    obtain ⟨hroots, hclaims⟩ := depositSpl_frame hdeposit
    exact ⟨h.lived, h.known, h.read, hroots ▸ h.posted, h.proved, hclaims ▸ h.marked, h.once⟩
  | @claim batchNo c program hclaim =>
    obtain ⟨⟨root, hroot, hverify⟩, hnew, -, -, rfl⟩ := claim_eq_ok_iff.mp hclaim
    refine ⟨h.lived, h.known, h.read, h.posted, ?_, ?_, ?_⟩
    · intro c' hc'
      rcases List.mem_append.mp hc' with hold | hlast
      · exact h.proved c' hold
      · rw [List.mem_singleton.mp hlast]
        exact ⟨root, h.posted batchNo root hroot, hverify⟩
    · intro c' hc'
      show (s.program.claims.insert (c.recipient, c.nonce) c.amount (c'.recipient, c'.nonce)).isSome
      rw [PartialMap.insert_apply]
      split
      · rfl
      · rename_i hne
        rcases List.mem_append.mp hc' with hold | hlast
        · exact h.marked c' hold
        · rw [List.mem_singleton.mp hlast] at hne
          exact absurd rfl hne
    · rw [List.map_append]
      refine List.nodup_append.mpr ⟨h.once, List.nodup_singleton _, ?_⟩
      intro key hkey key' hkey' heq
      obtain ⟨c', hc', rfl⟩ := List.mem_map.mp hkey
      have hmarked := h.marked c' hc'
      rw [heq, List.mem_singleton.mp hkey', hnew] at hmarked
      cases hmarked

theorem BridgeRun.claimsBacked {s : BridgeState} (run : BridgeRun E s) : ClaimsBacked E s := by
  induction run with
  | start authority => exact claimsBacked_start E authority
  | step run h ih => exact ih.step h

/-! ## Totals -/

def paidOf (assetId : Bytes 32) (paid : List Payout) : ℕ :=
  ((paid.filter (·.asset.assetId = assetId)).map (·.amount.toNat)).sum

def burnedOf (assetId : Bytes 32) (accepted : List WithdrawTx) : ℕ :=
  ((accepted.filter (·.assetId = assetId)).map (·.amount.toNat)).sum

/-- Claims under different recipients and nonces that all match withdrawals pay no more than those
burned. -/
theorem paidOf_le_burnedOf {paid : List Payout} {accepted : List WithdrawTx}
    (hmatched : ∀ c ∈ paid, ∃ w ∈ accepted, c.Matches w)
    (honce : (paid.map fun c => (c.recipient, c.nonce)).Nodup) (assetId : Bytes 32) :
    paidOf assetId paid ≤ burnedOf assetId accepted := by
  let claimed := fun c : Payout => (c.recipient, c.asset.assetId, c.amount, c.nonce)
  let burned := fun w : WithdrawTx => (w.recipient, w.assetId, w.amount, w.nonce)
  have hnodup : (paid.map claimed).Nodup :=
    List.pairwise_map.mpr ((List.pairwise_map.mp honce).imp fun hne heq =>
      hne (Prod.ext (congrArg (·.1) heq) (congrArg (·.2.2.2) heq)))
  have hsub : paid.map claimed ⊆ accepted.map burned := by
    intro fields hfields
    obtain ⟨c, hc, rfl⟩ := List.mem_map.mp hfields
    obtain ⟨w, hw, hrecipient, hasset, hamount, hnonce⟩ := hmatched c hc
    refine List.mem_map.mpr ⟨w, hw, ?_⟩
    simp only [burned, claimed, hrecipient, hasset, hamount, hnonce]
  have hsum := List.sum_filter_le_of_subset hnodup hsub (fun fields => fields.2.1 = assetId)
    (fun fields => fields.2.2.1.toNat)
  rw [List.filter_map, List.filter_map, List.map_map, List.map_map] at hsum
  exact hsum

/-- Every claim matches a withdrawal the L2 accepted, no two claims match the same one, and no asset
is paid out beyond what was burned of it. -/
structure Released (paid : List Payout) (accepted : List WithdrawTx) : Prop where
  matched : ∀ c ∈ paid, ∃ w ∈ accepted, c.Matches w
  once : paid.Pairwise fun c c' => ∀ w, ¬ (c.Matches w ∧ c'.Matches w)
  bounded : ∀ assetId, paidOf assetId paid ≤ burnedOf assetId accepted

/-- The strings hashed by the claims that went through, and those behind the trees of the node on
their paths. -/
def BridgeState.hashed (P : Prims) (s : BridgeState) : List (List UInt8) :=
  s.paid.flatMap fun c => c.hashed P ++
    (List.range (s.drafts.length + 1)).flatMap fun n =>
      treeHashed P (acceptedWithdrawals (s.drafts.take n)) (c.path P)

/-- In every interleaving of blocks, posts and claims, the claims are matched by accepted
withdrawals, one each, unless two of the hashed strings collide. -/
theorem no_over_release {s : BridgeState} (run : BridgeRun E s) :
    Released s.paid (acceptedWithdrawals s.drafts) ∨ Collision E.prims (s.hashed E.prims) := by
  have hbacked := run.claimsBacked
  by_cases hcollision : Collision E.prims (s.hashed E.prims)
  · exact .inr hcollision
  · have hmatched : ∀ c ∈ s.paid, ∃ w ∈ acceptedWithdrawals s.drafts, c.Matches w := by
      intro c hc
      obtain ⟨root, ⟨n, hn, rfl⟩, hverify⟩ := hbacked.proved c hc
      rcases matches_or_collision hverify with ⟨w, hw, hmatches⟩ | hfound
      · refine ⟨w, ?_, hmatches⟩
        obtain ⟨draft, hdraft, hw⟩ := List.mem_flatMap.mp hw
        exact List.mem_flatMap.mpr ⟨draft, List.mem_of_mem_take hdraft, hw⟩
      · refine absurd (hfound.mono fun x hx => ?_) hcollision
        refine List.mem_flatMap.mpr ⟨c, hc, ?_⟩
        rcases List.mem_append.mp hx with hclaim | htree
        · exact List.mem_append_left _ hclaim
        · refine List.mem_append_right _ (List.mem_flatMap.mpr ⟨n, ?_, htree⟩)
          exact List.mem_range.mpr (Nat.lt_succ_of_le hn)
    refine .inl ⟨hmatched, ?_, paidOf_le_burnedOf hmatched hbacked.once⟩
    refine (List.pairwise_map.mp hbacked.once).imp fun hne w => ?_
    rintro ⟨⟨hrecipient, -, -, hnonce⟩, hrecipient', -, -, hnonce'⟩
    exact hne (Prod.ext (hrecipient.symm.trans hrecipient') (hnonce.symm.trans hnonce'))

/-- The withdrawal of the first block is claimed from a vault that holds more. -/
theorem no_over_release_claimed :
    ∃ s, BridgeRun Sample.env s ∧ s.paid.length = 1 ∧
      (Released s.paid (acceptedWithdrawals s.drafts) ∨
        Collision Sample.env.prims (s.hashed Sample.env.prims)) := by
  obtain ⟨choice, node₀, node, draft, store, hboot, henqueue, hcommits, -, haccepted,
    hempty, -, -⟩ :=
    Sample.commits_contested
  let w := Sample.contested 9 1000
  let tree := insertLeaves Sample.env.prims node.withdrawals draft.accepted
  let authority : Pubkey := Bytes.replicate 32 5
  have hread : (shallow Sample.env.prims).read tree WITHDRAW_DEPTH (w.path Sample.env.prims) =
      w.treeLeaf Sample.env.prims := by
    simp only [tree]
    rw [haccepted]
    exact (read_insertLeaf _ w w).1 fun _ _ => rfl
  have hconsistent : (shallow Sample.env.prims).Consistent tree := by
    refine consistent_insertLeaves ?_ _
    rw [hempty]
    exact SparseTree.consistent_empty
  obtain ⟨⟨root, proof⟩, hserved⟩ : ∃ served,
    computeWithdrawalProof Sample.env.prims tree w.recipient
      w.assetId w.amount w.nonce = .ok served := by
    have hok := computeWithdrawalProof_isOk hconsistent hread
    cases h : computeWithdrawalProof Sample.env.prims tree w.recipient w.assetId w.amount
      w.nonce with
    | error e =>
      rw [h] at hok
      cases hok
    | ok served => exact ⟨served, rfl⟩
  have hroot : root = WithdrawSmt.root Sample.env.prims tree := by
    unfold computeWithdrawalProof at hserved
    dsimp only at hserved
    split at hserved
    · cases hserved
      rfl
    · cases hserved
  let record : BatchRecord := ⟨0, 1, 1, Bytes.replicate 32 0, root, Bytes.replicate 32 0, 0⟩
  have hrun₁ := (BridgeRun.start authority).step (.life hboot fun _ => List.nodup_nil)
  have hrun₂ := hrun₁.step (.life henqueue nofun)
  have hrun₃ := hrun₂.step (.life (.commit hcommits) nofun)
  have hrun₄ := hrun₃.step (.read rfl (.inl hroot))
  have hpost : (BatchAccounts.initialized authority).postBatch authority record =
      .ok ⟨authority, 1, PartialMap.insert (fun _ => none) 0 record⟩ := rfl
  have hrun₅ := hrun₄.step (.post (List.mem_append_right _ (List.mem_singleton_self _)) hpost)
  let roots : PartialMap UInt64 H256 := PartialMap.insert (fun _ => none) 0 root
  let program₁ : ProgramState := ⟨0, roots, fun _ => none, fun _ => 0⟩
  let program₂ : ProgramState :=
    ⟨5000, roots, fun _ => none, Function.update (fun _ => 0) .sol 5000⟩
  have hdeposit : depositSol program₁ authority 5000 authority =
      .ok (program₂, ⟨authority, 5000, authority, none, 9⟩) := by
    have hfits : ¬ 2 ^ 64 ≤ program₁.totalDeposited.toNat + (5000 : UInt64).toNat := by
      show ¬ 2 ^ 64 ≤ (0 : UInt64).toNat + (5000 : UInt64).toNat
      decide
    rw [depositSol, if_neg (by decide), if_neg hfits]
    rfl
  have hrun₆ := hrun₅.step (.depositSol hdeposit)
  have hposted : program₂.withdrawalsRoots 0 = some root :=
    PartialMap.insert_self (fun _ => none) 0 root
  have hfunds : w.amount.toNat ≤ program₂.vaults (.ofId w.assetId) := by
    show (1000 : UInt64).toNat ≤ 5000
    decide
  obtain ⟨program, hclaim, -⟩ := claim_of_served hserved hposted rfl (by decide) hfunds
  let c : Payout := ⟨.ofId w.assetId, w.recipient, w.amount, w.nonce, proof⟩
  have hrun₇ := hrun₆.step (@BridgeStep.claim _ _ 0 c program hclaim)
  exact ⟨_, hrun₇, rfl, no_over_release hrun₇⟩

end Zul.Node
