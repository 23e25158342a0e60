import Zul.Store.StateRoot

/-! # What the genesis hash identifies

The hashed string is the chain name, 72 bytes of fixed fields and 40 bytes for every allocation,
with no length in between. It determines a valid genesis up to the order of its allocations, and up
to re-cutting: 40 bytes after the name may as well belong to the name, at the cost of one
allocation.
-/

namespace Zul

namespace GenesisConfig

def sorted (g : GenesisConfig) : List Allocation :=
  g.allocations.mergeSort fun a b => !decide (b.pubkey.toList < a.pubkey.toList)

def fixedFields (g : GenesisConfig) : List UInt8 :=
  LittleEndian.u64 g.creationTimeMs ++ g.sequencer.toList ++ g.feeCollector.toList

def allocationBytes (a : Allocation) : List UInt8 :=
  a.pubkey.toList ++ LittleEndian.u64 a.lamports

def hashInput (g : GenesisConfig) : List UInt8 :=
  strBytes "PL2:genesis:v1" ++
    (strBytes g.chainName ++ (g.fixedFields ++ g.sorted.flatMap allocationBytes))

def Same (g g' : GenesisConfig) : Prop :=
  g.chainName = g'.chainName ∧ g.creationTimeMs = g'.creationTimeMs ∧
    g.sequencer = g'.sequencer ∧ g.feeCollector = g'.feeCollector ∧
    g.allocations.Perm g'.allocations

/-- The bytes of the fixed fields and the first `k` allocations. -/
def front (g : GenesisConfig) (k : ℕ) : List UInt8 :=
  g.fixedFields ++ (g.sorted.take k).flatMap allocationBytes

/-- The second name is the first one lengthened by 40 bytes for each of `k` allocations given up: it
takes them from the fixed fields and those allocations, and what is left of these are the second
fixed fields. -/
def Recut (g g' : GenesisConfig) : Prop :=
  ∃ k, 0 < k ∧ k ≤ g.allocations.length ∧
    strBytes g'.chainName = strBytes g.chainName ++ (g.front k).take (40 * k) ∧
    g'.fixedFields = (g.front k).drop (40 * k) ∧ g'.sorted = g.sorted.drop k

/-! ## Lengths and parts -/

theorem genesisHash_eq (P : Prims) (g : GenesisConfig) :
    g.genesisHash P = P.blake3 g.hashInput := by
  have hsegments :
      (g.sorted.flatMap fun a => [a.pubkey.toList, LittleEndian.u64 a.lamports]).flatten
      = g.sorted.flatMap allocationBytes := by
    induction g.sorted with
    | nil => rfl
    | cons a l ih => simp [ih, allocationBytes]
  rw [genesisHash, Prims.blake3Concat, List.flatten_append]
  show P.blake3 (_ ++ (_ ++
    (g.sorted.flatMap fun a => [a.pubkey.toList, LittleEndian.u64 a.lamports]).flatten)) = _
  rw [hsegments]
  simp [hashInput, fixedFields]

@[simp] theorem length_fixedFields (g : GenesisConfig) : g.fixedFields.length = 72 := by
  simp [fixedFields]

@[simp] theorem length_allocationBytes (a : Allocation) : (allocationBytes a).length = 40 := by
  simp [allocationBytes]

@[simp] theorem length_flatMap_allocationBytes (l : List Allocation) :
    (l.flatMap allocationBytes).length = 40 * l.length := by
  induction l with
  | nil => rfl
  | cons a l ih =>
    rw [List.flatMap_cons, List.length_append, ih, length_allocationBytes, List.length_cons]
    omega

theorem length_sorted (g : GenesisConfig) : g.sorted.length = g.allocations.length :=
  List.length_mergeSort _

theorem length_front {g : GenesisConfig} {k : ℕ} (hk : k ≤ g.allocations.length) :
    (g.front k).length = 72 + 40 * k := by
  rw [front, List.length_append, length_fixedFields, length_flatMap_allocationBytes,
    List.length_take, length_sorted, min_eq_left hk]

theorem fields_eq_front (g : GenesisConfig) (k : ℕ) :
    g.fixedFields ++ g.sorted.flatMap allocationBytes =
      (g.front k).take (40 * k) ++
        ((g.front k).drop (40 * k) ++ (g.sorted.drop k).flatMap allocationBytes) := by
  rw [← List.append_assoc, List.take_append_drop, front, List.append_assoc, ← List.flatMap_append,
    List.take_append_drop]

theorem allocationBytes_injective : Function.Injective allocationBytes := by
  intro a b h
  obtain ⟨hkey, hlamports⟩ := List.append_inj h (by simp)
  obtain ⟨pubkey, lamports⟩ := a
  cases Bytes.ext hkey
  cases LittleEndian.u64_injective hlamports
  rfl

theorem flatMap_allocationBytes_inj {l l' : List Allocation}
    (h : l.flatMap allocationBytes = l'.flatMap allocationBytes) : l = l' := by
  induction l generalizing l' with
  | nil =>
    have hlength := congrArg List.length h
    rw [length_flatMap_allocationBytes, length_flatMap_allocationBytes, List.length_nil] at hlength
    exact (List.length_eq_zero_iff.mp (by omega)).symm
  | cons a l ih =>
    cases l' with
    | nil =>
      have hlength := congrArg List.length h
      rw [length_flatMap_allocationBytes, length_flatMap_allocationBytes] at hlength
      simp at hlength
    | cons b l' =>
      obtain ⟨hhead, htail⟩ := List.append_inj h (by simp)
      rw [allocationBytes_injective hhead, ih htail]

theorem fixedFields_inj {g g' : GenesisConfig} (h : g.fixedFields = g'.fixedFields) :
    g.creationTimeMs = g'.creationTimeMs ∧ g.sequencer = g'.sequencer ∧
      g.feeCollector = g'.feeCollector := by
  obtain ⟨h, hcollector⟩ := List.append_inj h (by simp)
  obtain ⟨htime, hsequencer⟩ := List.append_inj h (by simp)
  exact ⟨LittleEndian.u64_injective htime, Bytes.ext hsequencer, Bytes.ext hcollector⟩

theorem strBytes_injective : Function.Injective strBytes := by
  intro s t h
  exact String.toByteArray_inj.mp (ByteArray.ext (Array.toList_inj.mp h))

/-! ## Valid configurations -/

theorem nodup_of_validateAllocations {display : Pubkey → String} {seen : List Pubkey}
    {l : List Allocation} (h : validateAllocations display seen l = .ok ()) :
    (l.map (·.pubkey)).Nodup ∧ ∀ a ∈ l, a.pubkey ∉ seen := by
  induction l generalizing seen with
  | nil => simp
  | cons a l ih =>
    rw [validateAllocations] at h
    split_ifs at h with hzero hseen
    obtain ⟨hnodup, hnew⟩ := ih h
    rw [List.contains_eq_mem, decide_eq_true_eq] at hseen
    refine ⟨?_, ?_⟩
    · rw [List.map_cons, List.nodup_cons]
      refine ⟨?_, hnodup⟩
      intro hmem
      obtain ⟨b, hb, heq⟩ := List.mem_map.mp hmem
      exact hnew b hb (heq ▸ List.mem_cons_self)
    · intro b hb
      rcases List.mem_cons.mp hb with rfl | hb
      · exact hseen
      · exact fun hmem => hnew b hb (List.mem_cons_of_mem _ hmem)

theorem nodup_of_validate {display : Pubkey → String} {g : GenesisConfig}
    (h : g.validate display = .ok ()) : (g.allocations.map (·.pubkey)).Nodup := by
  have hallocations : validateAllocations display [] g.allocations = .ok () := by
    rw [validate] at h
    split at h
    · cases h
    · split at h
      · cases h
      · assumption
  exact (nodup_of_validateAllocations hallocations).1

theorem pairwise_sorted (g : GenesisConfig) :
    g.sorted.Pairwise fun a b => a.pubkey.toList ≤ b.pubkey.toList := by
  have hle : ∀ a b : Allocation, (!decide (b.pubkey.toList < a.pubkey.toList)) = true ↔
      a.pubkey.toList ≤ b.pubkey.toList := by
    intro a b
    rw [Bool.not_eq_true', decide_eq_false_iff_not, List.not_lt]
  refine (List.pairwise_mergeSort ?_ ?_ g.allocations).imp fun {a b} h => (hle a b).mp h
  · intro a b c hab hbc
    rw [hle] at hab hbc ⊢
    exact List.le_trans hab hbc
  · intro a b
    rw [Bool.or_eq_true, hle, hle]
    exact List.le_total _ _

theorem sorted_eq_of_perm {g g' : GenesisConfig} (hnodup : (g.allocations.map (·.pubkey)).Nodup)
    (h : g.allocations.Perm g'.allocations) : g.sorted = g'.sorted := by
  have hperm : g.sorted.Perm g'.sorted :=
    (List.mergeSort_perm _ _).trans (h.trans (List.mergeSort_perm _ _).symm)
  refine hperm.eq_of_pairwise ?_ g.pairwise_sorted g'.pairwise_sorted
  intro a b ha hb hab hba
  have hkey : a.pubkey = b.pubkey := Bytes.ext (List.le_antisymm hab hba)
  have ha := (List.mergeSort_perm _ _).mem_iff.mp ha
  have hb := h.mem_iff.mpr ((List.mergeSort_perm _ _).mem_iff.mp hb)
  exact List.inj_on_of_nodup_map hnodup ha hb hkey

/-! ## One hashed string -/

theorem Same.hashInput_eq {g g' : GenesisConfig} (h : g.Same g')
    (hnodup : (g.allocations.map (·.pubkey)).Nodup) : g.hashInput = g'.hashInput := by
  obtain ⟨hname, htime, hsequencer, hcollector, hperm⟩ := h
  rw [hashInput, hashInput, fixedFields, fixedFields, hname, htime, hsequencer, hcollector,
    sorted_eq_of_perm hnodup hperm]

theorem Recut.hashInput_eq {g g' : GenesisConfig} (h : g.Recut g') :
    g.hashInput = g'.hashInput := by
  obtain ⟨k, -, -, hname, hfields, hsorted⟩ := h
  rw [hashInput, hashInput, hname, hfields, hsorted, g.fields_eq_front k, List.append_assoc]

theorem Recut.not_same {g g' : GenesisConfig} (h : g.Recut g') : ¬ g.Same g' := by
  rintro ⟨hname, -⟩
  obtain ⟨k, hpos, hk, hname', -⟩ := h
  have hlength := congrArg List.length hname'
  rw [hname, List.length_append, List.length_take, length_front hk] at hlength
  omega

theorem same_or_recut {g g' : GenesisConfig}
    (hle : (strBytes g.chainName).length ≤ (strBytes g'.chainName).length)
    (h : g.hashInput = g'.hashInput) : g.Same g' ∨ g.Recut g' := by
  have h := List.append_cancel_left h
  have hlength := congrArg List.length h
  simp only [List.length_append, length_fixedFields, length_flatMap_allocationBytes,
    length_sorted] at hlength
  obtain ⟨k, hk⟩ : ∃ k, g.allocations.length = g'.allocations.length + k :=
    ⟨g.allocations.length - g'.allocations.length, by omega⟩
  rcases Nat.eq_zero_or_pos k with rfl | hpos
  · obtain ⟨hname, hrest⟩ := List.append_inj h (by omega)
    obtain ⟨hfields, hsorted⟩ := List.append_inj hrest (by simp)
    obtain ⟨htime, hsequencer, hcollector⟩ := fixedFields_inj hfields
    refine .inl ⟨strBytes_injective hname, htime, hsequencer, hcollector, ?_⟩
    have hperm := List.mergeSort_perm g.allocations
      fun a b => !decide (b.pubkey.toList < a.pubkey.toList)
    rw [← sorted, flatMap_allocationBytes_inj hsorted] at hperm
    exact hperm.symm.trans (List.mergeSort_perm _ _)
  · -- the name takes in the bytes it is longer by
    have hle : k ≤ g.allocations.length := by omega
    have hfront := length_front hle
    rw [g.fields_eq_front k, ← List.append_assoc] at h
    obtain ⟨hname, hrest⟩ := List.append_inj h (by
      rw [List.length_append, List.length_take, hfront]
      omega)
    obtain ⟨hfields, hsorted⟩ := List.append_inj hrest (by
      rw [List.length_drop, hfront, length_fixedFields]
      omega)
    exact .inr ⟨k, hpos, hle, hname.symm, hfields.symm, (flatMap_allocationBytes_inj hsorted).symm⟩

theorem Same.symm {g g' : GenesisConfig} (h : g.Same g') : g'.Same g :=
  ⟨h.1.symm, h.2.1.symm, h.2.2.1.symm, h.2.2.2.1.symm, h.2.2.2.2.symm⟩

theorem hashInput_eq_iff {g g' : GenesisConfig} (hnodup : (g.allocations.map (·.pubkey)).Nodup) :
    g.hashInput = g'.hashInput ↔ g.Same g' ∨ g.Recut g' ∨ g'.Recut g := by
  constructor
  · intro h
    rcases Nat.le_total (strBytes g.chainName).length (strBytes g'.chainName).length with hle | hle
    · exact (same_or_recut hle h).imp_right .inl
    · rcases same_or_recut hle h.symm with hsame | hrecut
      · exact .inl hsame.symm
      · exact .inr (.inr hrecut)
  · rintro (h | h | h)
    · exact h.hashInput_eq hnodup
    · exact h.hashInput_eq
    · exact h.hashInput_eq.symm

theorem hash_eq_of_initializeGenesis {P : Prims} {s s' : Store} {g g' : GenesisConfig}
    {extraAccounts : List (Pubkey × StoredAccount)} (hs : s.genesisHash = some (g.genesisHash P))
    (h : s.initializeGenesis P g' extraAccounts = .ok s') : g.genesisHash P = g'.genesisHash P := by
  obtain ⟨hs', -, -⟩ | ⟨hs', -⟩ := Store.initializeGenesis_cases h
  · exact Option.some.inj (hs.symm.trans hs')
  · rw [hs] at hs'
    cases hs'

/-- A valid configuration is told from another by the hashed string exactly when neither is the
other re-cut; then a database initialized with one accepts the other only if they are the same, or
their strings collide. -/
theorem genesis_identified_iff (P : Prims) (display : Pubkey → String) {g g' : GenesisConfig}
    (hg : g.validate display = .ok ()) :
    ((g.hashInput = g'.hashInput ↔ g.Same g') ↔ ¬ g.Recut g' ∧ ¬ g'.Recut g) ∧
      (¬ g.Recut g' ∧ ¬ g'.Recut g → ∀ (s s' : Store) extraAccounts,
        s.genesisHash = some (g.genesisHash P) →
        s.initializeGenesis P g' extraAccounts = .ok s' →
        g.Same g' ∨ Collision P [g.hashInput, g'.hashInput]) := by
  have hiff := @hashInput_eq_iff g g' (nodup_of_validate hg)
  constructor
  · rw [hiff]
    constructor
    · intro h
      exact ⟨fun hrecut => hrecut.not_same (h.mp (.inr (.inl hrecut))),
        fun hrecut => hrecut.not_same (h.mp (.inr (.inr hrecut))).symm⟩
    · rintro ⟨hno, hno'⟩
      exact ⟨fun h => h.resolve_right fun hrecut => hrecut.elim hno hno', .inl⟩
  · rintro ⟨hno, hno'⟩ s s' extraAccounts hs h
    have hhash := hash_eq_of_initializeGenesis hs h
    rw [genesisHash_eq, genesisHash_eq] at hhash
    by_cases hinput : g.hashInput = g'.hashInput
    · exact .inl ((hiff.mp hinput).resolve_right fun hrecut => hrecut.elim hno hno')
    · exact .inr ⟨_, List.mem_cons_self, _, List.mem_cons_of_mem _ List.mem_cons_self, hinput,
        hhash⟩

namespace Sample

/-- A genesis whose every byte after the name is the letter `a`. -/
def named : GenesisConfig where
  chainName := "z"
  creationTimeMs := 0x6161616161616161
  sequencer := Bytes.replicate 32 0x61
  feeCollector := Bytes.replicate 32 0x61
  allocations := [⟨Bytes.replicate 32 0x61, 0x6161616161616161⟩]

/-- The same bytes with 40 more of them in the name, and no allocation. -/
def renamed : GenesisConfig where
  chainName := "zaaaaaaaaaaaaaaaaaaaaaaaaaaaaaaaaaaaaaaaa"
  creationTimeMs := 0x6161616161616161
  sequencer := Bytes.replicate 32 0x61
  feeCollector := Bytes.replicate 32 0x61
  allocations := []

end Sample

/-- The criterion at two valid configurations that are re-cuts. -/
theorem named_identified_iff :
    Sample.named.validate (fun _ => "") = .ok () ∧
      ((Sample.named.hashInput = Sample.renamed.hashInput ↔ Sample.named.Same Sample.renamed) ↔
        ¬ Sample.named.Recut Sample.renamed ∧ ¬ Sample.renamed.Recut Sample.named) :=
  ⟨by decide, (genesis_identified_iff Zul.Store.Sample.prims (fun _ => "") (by decide)).1⟩

/-- Two different valid configurations have one hashed string, and a database initialized with the
first accepts the second. -/
theorem renamed_genesis_accepted :
    Sample.named.validate (fun _ => "") = .ok () ∧
      Sample.renamed.validate (fun _ => "") = .ok () ∧
      ¬ Sample.named.Same Sample.renamed ∧
      Sample.named.hashInput = Sample.renamed.hashInput ∧
      ∀ (P : Prims) (s : Store) (extraAccounts : List (Pubkey × StoredAccount)),
        s.genesisHash = some (Sample.named.genesisHash P) → s.stateRoot.isSome →
        s.initializeGenesis P Sample.renamed extraAccounts = .ok s := by
  have hinput : Sample.named.hashInput = Sample.renamed.hashInput := by
    have hnamed : Sample.named.sorted = Sample.named.allocations := List.mergeSort_singleton _
    have hrenamed : Sample.renamed.sorted = [] := List.mergeSort_nil
    rw [hashInput, hashInput, hnamed, hrenamed]
    decide
  refine ⟨by decide, by decide, ?_, hinput, ?_⟩
  · rintro ⟨hname, -⟩
    exact absurd hname (by decide)
  · intro P s extraAccounts hs hroot
    have hhash : Sample.named.genesisHash P = Sample.renamed.genesisHash P := by
      rw [genesisHash_eq, genesisHash_eq, hinput]
    simp [Store.initializeGenesis, hs, hhash, hroot]

end GenesisConfig

end Zul
