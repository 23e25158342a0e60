import Zul.Store.Commit
import Zul.Store.LeafMap

/-! # The state root commits to the accounts

The accounts table, the node table and the root are written from different data: account writes,
dirty nodes and a hash. They stay in step, so the stored root is the root of the full tree over
the accounts, and every account, present or absent, has a proof against it.
-/

namespace Zul

namespace Smt

variable (P : Prims)

/-- The leaf of an account: its hash bound to its key, or the empty leaf. -/
def leafValue (pubkey : Pubkey) (account : Option StoredAccount) : H256 :=
  provenLeaf P pubkey (account.map (·.hash P pubkey))

open Classical in
noncomputable def accountsLeaf (accounts : PartialMap Pubkey StoredAccount) (index : ℕ) : H256 :=
  if h : ∃ k, (accounts k).isSome ∧ position P k = index then
    leafValue P h.choose (accounts h.choose)
  else emptyHashes P SMT_DEPTH

/-- The root of the full depth-256 tree of an accounts table. -/
noncomputable def accountsRoot (accounts : PartialMap Pubkey StoredAccount) : H256 :=
  MerkleTree.root (nodeHash P) (accountsLeaf P accounts) SMT_DEPTH

variable {P}

def accountHashes (P : Prims) (accounts : PartialMap Pubkey StoredAccount) : LeafMap := fun k =>
  (accounts k).map (·.hash P k)

theorem isSome_accountHashes (accounts : PartialMap Pubkey StoredAccount) (k : Pubkey) :
    (accountHashes P accounts k).isSome = (accounts k).isSome := Option.isSome_map ..

theorem accountsLeaf_eq (accounts : PartialMap Pubkey StoredAccount) :
    accountsLeaf P accounts = mapLeaf P (accountHashes P accounts) := by
  funext index
  simp only [accountsLeaf, mapLeaf, isSome_accountHashes]
  rfl

def leafUpdates (P : Prims) (writes : List (Pubkey × Option StoredAccount)) : List LeafUpdate :=
  writes.map fun w => (w.1, w.2.map (·.hash P w.1))

theorem accountHashes_foldl_writeAccount (accounts : PartialMap Pubkey StoredAccount)
    (writes : List (Pubkey × Option StoredAccount)) :
    accountHashes P (writes.foldl Store.writeAccount accounts) =
      (leafUpdates P writes).foldl setLeaf (accountHashes P accounts) := by
  induction writes generalizing accounts with
  | nil => rfl
  | cons w writes ih =>
    have hstep : accountHashes P (Store.writeAccount accounts w) =
        setLeaf (accountHashes P accounts) (w.1, w.2.map (·.hash P w.1)) := by
      funext k
      rw [accountHashes, Store.writeAccount_apply, setLeaf]
      split
      · rename_i hk
        rw [hk]
      · rfl
    rw [List.foldl_cons, ih, hstep]
    rfl

end Smt

namespace Store

open Smt

variable {P : Prims}

theorem read_writeSmtNodes (table : PartialMap NodeKey H256) (update : StateUpdate) {d : ℕ}
    (hd : d ≤ SMT_DEPTH) (path : H256) :
    (tree P SMT_DEPTH).read (writeSmtNodes P table update) d path =
      (tree P SMT_DEPTH).read (update.nodeWrites.onto table) d path := by
  have hdepth : ((tree P SMT_DEPTH).key d path).depth = d := depth_nodeKey hd path
  simp only [SparseTree.read, writeSmtNodes, PartialMap.onto_apply, hdepth]
  cases update.nodeWrites ((tree P SMT_DEPTH).key d path) with
  | none => rfl
  | some value =>
    by_cases hempty : value = emptyHashes P d
    · simp [hempty, emptyHashes]
    · simp [hempty]

/-- The node table holds the full tree of the accounts, and its root is stored. -/
structure CommitsAccounts (P : Prims) (s : Store) : Prop where
  consistent : (tree P SMT_DEPTH).Consistent s.smtNodes
  leaves : (tree P SMT_DEPTH).Leaves (accountsLeaf P s.accounts) s.smtNodes
  root : s.stateRoot = some ((tree P SMT_DEPTH).read s.smtNodes 0 (Bytes.replicate 32 0))

theorem commitsAccounts_update {K : Set Pubkey} (hinj : Set.InjOn (keyPath P) K) (s : Store)
    {s' : Store} (writes : List (Pubkey × Option StoredAccount))
    (hconsistent : (tree P SMT_DEPTH).Consistent s.smtNodes)
    (hleaves : (tree P SMT_DEPTH).Leaves (accountsLeaf P s.accounts) s.smtNodes)
    (hkeys : ∀ k, (s.accounts k).isSome → k ∈ K) (hwrites : ∀ w ∈ writes, w.1 ∈ K)
    (haccounts : s'.accounts = writes.foldl writeAccount s.accounts)
    (hnodes : s'.smtNodes = writeSmtNodes P s.smtNodes
      (s.prepareStateUpdate P (leafUpdates P writes)))
    (hroot : s'.stateRoot = some (s.prepareStateUpdate P (leafUpdates P writes)).newRoot) :
    CommitsAccounts P s' ∧ ∀ k, (s'.accounts k).isSome → k ∈ K := by
  have hread : ∀ {d : ℕ}, d ≤ SMT_DEPTH → ∀ path, (tree P SMT_DEPTH).read s'.smtNodes d path =
      (tree P SMT_DEPTH).read ((s.prepareStateUpdate P (leafUpdates P writes)).nodeWrites.onto
        s.smtNodes) d path := by
    intro d hd path
    rw [hnodes]
    exact read_writeSmtNodes _ _ hd path
  obtain ⟨hc, hl⟩ := applyUpdates_spec hconsistent hleaves (leafUpdates P writes)
  have hupdates : ∀ u ∈ leafUpdates P writes, u.1 ∈ K := by
    intro u hu
    obtain ⟨w, hw, rfl⟩ := List.mem_map.mp hu
    exact hwrites w hw
  have hhashes : ∀ k, (accountHashes P s.accounts k).isSome → k ∈ K := by
    intro k hk
    rw [isSome_accountHashes] at hk
    exact hkeys k hk
  obtain ⟨hleaf, hkeys'⟩ := mapLeaf_foldl_setLeaf hinj hhashes hupdates
  rw [← accountHashes_foldl_writeAccount, ← haccounts] at hleaf hkeys'
  simp only [isSome_accountHashes] at hkeys'
  rw [← accountsLeaf_eq, ← accountsLeaf_eq] at hleaf
  refine ⟨⟨fun d hd p => ?_, fun p => ?_, ?_⟩, hkeys'⟩
  · have hd : d < SMT_DEPTH := hd
    rw [hread hd.le, hread hd, hread hd]
    exact hc d hd p
  · rw [hleaf]
    exact (hread le_rfl p).trans (hl p)
  · rw [hroot, hread (Nat.zero_le _)]
    rfl

/-! ## Runs -/

/-- A store after genesis and any number of committed blocks that write accounts in `K`, in any
order, with the leaf updates derived from those writes. -/
inductive Reached (P : Prims) (K : Set Pubkey) : Store → Prop
  | genesis {s : Store} {genesis : GenesisConfig} {extra : List (Pubkey × StoredAccount)}
      (allocations : ∀ a ∈ genesis.allocations, a.pubkey ∈ K) (extras : ∀ e ∈ extra, e.1 ∈ K)
      (h : Store.empty.initializeGenesis P genesis extra = .ok s) : Reached P K s
  | block {s s' : Store} {block : Block} {metas : List ExecutedTransactionMeta}
      {writes : List (Pubkey × Option StoredAccount)} {queue : BlockhashQueue}
      {nullifiers : List H256} (reached : Reached P K s) (keys : ∀ w ∈ writes, w.1 ∈ K)
      (h : s.commitBlock P block metas writes (s.prepareStateUpdate P (leafUpdates P writes)) queue
        nullifiers = .ok s') : Reached P K s'
  | withdrawals {s : Store} (reached : Reached P K s) (root : H256) :
      Reached P K (s.setWithdrawalsRoot root)

theorem Reached.commitsAccounts {K : Set Pubkey} (hinj : Set.InjOn (keyPath P) K) {s : Store}
    (reached : Reached P K s) :
    CommitsAccounts P s ∧ ∀ k, (s.accounts k).isSome → k ∈ K := by
  induction reached with
  | @genesis s genesis extra allocations extras h =>
    set accounts := genesis.allocations.map
      (fun a => (a.pubkey, StoredAccount.newSystem a.lamports))
      ++ extra with haccounts
    have hempty : accountsLeaf P Store.empty.accounts = fun _ => emptyHashes P SMT_DEPTH :=
      (accountsLeaf_eq _).trans mapLeaf_empty
    cases h
    refine commitsAccounts_update hinj Store.empty (accounts.map fun e => (e.1, some e.2))
      SparseTree.consistent_empty ?_ (fun k hk => by cases hk) ?_ ?_ ?_ ?_
    · intro p
      rw [hempty]
      exact Option.getD_none
    · intro w hw
      obtain ⟨e, he, rfl⟩ := List.mem_map.mp hw
      rcases List.mem_append.mp he with he | he
      · obtain ⟨a, ha, rfl⟩ := List.mem_map.mp he
        exact allocations a ha
      · exact extras e he
    · rw [List.foldl_map]
      rfl
    all_goals
      rw [leafUpdates, List.map_map]
      rfl
  | block reached keys h ih =>
    obtain ⟨⟨hconsistent, hleaves, -⟩, hkeys⟩ := ih
    have hframe := commitBlock_frame h
    refine commitsAccounts_update hinj _ _ hconsistent hleaves hkeys keys ?_ ?_ ?_ <;> rw [hframe]
  | withdrawals reached root ih => exact ⟨⟨ih.1.consistent, ih.1.leaves, ih.1.root⟩, ih.2⟩

theorem CommitsAccounts.verify_proveAccount {K : Set Pubkey} (hinj : Set.InjOn (keyPath P) K)
    {s : Store} (h : CommitsAccounts P s) (hkeys : ∀ k, (s.accounts k).isSome → k ∈ K)
    {pubkey : Pubkey} (hk : pubkey ∈ K) :
    Smt.verify P ((tree P SMT_DEPTH).read s.smtNodes 0 (Bytes.replicate 32 0)) pubkey
      ((s.proveAccount P pubkey).1.map (·.hash P pubkey)) (s.proveAccount P pubkey).2 = true := by
  have hleaf : (tree P SMT_DEPTH).read s.smtNodes SMT_DEPTH (keyPath P pubkey) =
      leafValue P pubkey (s.accounts pubkey) := by
    refine (h.leaves _).trans ?_
    rw [accountsLeaf_eq]
    apply mapLeaf_position hinj _ hk
    simpa only [isSome_accountHashes] using hkeys
  have hS : (tree P SMT_DEPTH).Lawful := tree_lawful P le_rfl
  rw [hS.read_root s.smtNodes _ (keyPath P pubkey)]
  exact Smt.verify_prove_of_read h.consistent hleaf

/-- The stored state root is the root of the full tree of the accounts, and the proof served for
any key, of its account or of its absence, verifies against it. -/
theorem state_root_commits {K : Set Pubkey} (hinj : Set.InjOn (keyPath P) K) {s : Store}
    (reached : Reached P K s) :
    s.stateRoot = some (accountsRoot P s.accounts) ∧
      ∀ pubkey ∈ K, Smt.verify P (accountsRoot P s.accounts) pubkey
        ((s.proveAccount P pubkey).1.map (·.hash P pubkey)) (s.proveAccount P pubkey).2 = true := by
  obtain ⟨hcommits, hkeys⟩ := reached.commitsAccounts hinj
  have hS : (tree P SMT_DEPTH).Lawful := tree_lawful P le_rfl
  have hroot : (tree P SMT_DEPTH).read s.smtNodes 0 (Bytes.replicate 32 0) =
      accountsRoot P s.accounts :=
    hS.read_eq_nodeAt hcommits.consistent hcommits.leaves (Nat.zero_add _) _
  rw [← hroot]
  exact ⟨hcommits.root, fun pubkey hk => hcommits.verify_proveAccount hinj hkeys hk⟩

namespace Sample

/-- A stand-in hash that keeps the last 32 bytes. -/
def prims : Prims where
  blake3 bytes := ⟨(bytes.reverse ++ List.replicate 32 0).take 32, by simp⟩
  findProgramAddress _ _ := Bytes.replicate 32 0
  poseidon _ := 0

theorem keyPath_injective : Function.Injective (keyPath prims) := by
  have hpath : ∀ k : Pubkey, (keyPath prims k).toList = k.toList.reverse := by
    intro k
    show ((strBytes "PL2:smt:key" ++ k.toList).reverse ++ List.replicate 32 0).take 32 = _
    rw [List.reverse_append, List.append_assoc]
    exact List.take_left' (by simp)
  intro k k' h
  ext1
  rw [← List.reverse_inj, ← hpath, h, hpath]

def genesis : GenesisConfig where
  chainName := "zul-sample"
  creationTimeMs := 0
  sequencer := Bytes.replicate 32 4
  feeCollector := Bytes.replicate 32 3
  allocations := [⟨Bytes.replicate 32 1, 5⟩, ⟨Bytes.replicate 32 1, 7⟩]

end Sample

/-- The later of two allocations of one key is the one its proof shows. -/
theorem state_root_commits_duplicate :
    ∃ s, Reached Sample.prims Set.univ s ∧
      s.getAccount (Bytes.replicate 32 1) = some (StoredAccount.newSystem 7) ∧
      s.stateRoot = some (accountsRoot Sample.prims s.accounts) ∧
      Smt.verify Sample.prims (accountsRoot Sample.prims s.accounts) (Bytes.replicate 32 1)
        (some ((StoredAccount.newSystem 7).hash Sample.prims (Bytes.replicate 32 1)))
        (s.proveAccount Sample.prims (Bytes.replicate 32 1)).2 = true := by
  obtain ⟨s, hs⟩ : ∃ s, Store.empty.initializeGenesis Sample.prims Sample.genesis [] = .ok s :=
    ⟨_, rfl⟩
  have haccount : s.getAccount (Bytes.replicate 32 1) = some (StoredAccount.newSystem 7) := by
    cases hs
    decide
  have hreached : Reached Sample.prims Set.univ s :=
    .genesis (fun _ _ => trivial) (fun _ _ => trivial) hs
  obtain ⟨hroot, hverify⟩ := state_root_commits Sample.keyPath_injective.injOn hreached
  have hproof := hverify (Bytes.replicate 32 1) trivial
  rw [proveAccount, haccount] at hproof
  exact ⟨s, hreached, haccount, hroot, hproof⟩

end Store

end Zul
