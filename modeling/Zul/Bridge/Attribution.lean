import Mathlib.Data.List.Nodup
import Mathlib.Data.List.TakeWhile
import Zul.Bridge.Rpc

/-! # Who logged a deposit

The client takes the first line of a transaction's log that parses as a deposit, whichever
program wrote it. The events it returns are the settlement program's own exactly when no other
line comes first with an event that program did not emit.
-/

namespace Zul.Bridge

def Backed (history : List L1Transaction) (event : DepositEvent) : Prop :=
  ∃ tx ∈ history, tx.failed = false ∧ event ∈ tx.emitted

/-- No line of any program parses, ahead of every other entry that does, as a deposit the
settlement program did not make in this transaction. -/
def Unforged (tx : L1Transaction) : Prop :=
  ∀ before program text after event, tx.log = before ++ .line program text :: after →
    (∀ entry ∈ before, depositInLine tx.signature entry.text = none) →
    depositInLine tx.signature text = some event → event ∈ tx.emitted

/-! ## Signatures -/

theorem depositInLine_signature {signature : String} {text : List Char} {event : DepositEvent}
    (h : depositInLine signature text = some event) : event.l1Signature = signature := by
  simp only [depositInLine, parseDepositedEvent, Option.bind_eq_bind, Option.bind_eq_some_iff] at h
  obtain ⟨encoded, -, bytes, -, _, -, recipient, -, tail, -, h⟩ := h
  cases h
  rfl

theorem depositInTx_signature {signature : String} {log : List LogEntry} {event : DepositEvent}
    (h : depositInTx signature log = some event) : event.l1Signature = signature := by
  obtain ⟨entry, -, h⟩ := List.exists_of_findSome?_eq_some h
  exact depositInLine_signature h

theorem emitted_signature {tx : L1Transaction} {event : DepositEvent} (h : event ∈ tx.emitted) :
    event.l1Signature = tx.signature := by
  obtain ⟨entry, -, h⟩ := List.mem_filterMap.mp h
  cases entry with
  | deposited d =>
    cases h
    rfl
  | line program text => cases h

theorem mem_emitted {tx : L1Transaction} {d : Deposited} (h : LogEntry.deposited d ∈ tx.log) :
    d.toEvent tx.signature ∈ tx.emitted :=
  List.mem_filterMap.mpr ⟨_, h, rfl⟩

/-! ## One transaction -/

/-- The event found in a transaction is the settlement program's own exactly when the
transaction is unforged. -/
theorem depositInTx_emitted_iff (tx : L1Transaction) :
    (∀ event, depositInTx tx.signature tx.log = some event → event ∈ tx.emitted) ↔
      Unforged tx := by
  constructor
  · intro h before program text after event hlog hbefore hparse
    apply h
    exact List.findSome?_eq_some_iff.mpr ⟨before, .line program text, after, hlog, hparse, hbefore⟩
  · intro h event hfound
    obtain ⟨before, entry, after, hlog, hparse, hbefore⟩ := List.findSome?_eq_some_iff.mp hfound
    cases entry with
    | deposited d =>
      -- the settlement program's own line parses to what it emitted
      rw [LogEntry.text, depositInLine_line] at hparse
      cases hparse
      exact mem_emitted (by rw [hlog]; simp)
    | line program text => exact h before program text after event hlog hbefore hparse

/-! ## A history -/

theorem getSignaturesForAddress_subset {history : List L1Transaction} {limit : ℕ}
    {after : Option String} {tx : L1Transaction}
    (h : tx ∈ getSignaturesForAddress history limit after) : tx ∈ history :=
  List.mem_reverse.mp ((List.takeWhile_sublist _).subset (List.mem_of_mem_take h))

theorem eq_of_signature_eq {history : List L1Transaction}
    (hnodup : (history.map (·.signature)).Nodup) {tx tx' : L1Transaction} (htx : tx ∈ history)
    (htx' : tx' ∈ history) (h : tx.signature = tx'.signature) : tx = tx' :=
  List.inj_on_of_nodup_map hnodup htx htx' h

theorem getTransactionLog_of_mem {history : List L1Transaction}
    (hnodup : (history.map (·.signature)).Nodup) {tx : L1Transaction} (htx : tx ∈ history) :
    getTransactionLog history tx.signature = tx.log := by
  unfold getTransactionLog
  cases hfind : history.find? fun t => t.signature = tx.signature with
  | none =>
    have := List.find?_eq_none.mp hfind tx htx
    simp at this
  | some found =>
    have hsig : found.signature = tx.signature := by simpa using List.find?_some hfind
    rw [eq_of_signature_eq hnodup (List.mem_of_find?_eq_some hfind) htx hsig]

/-- The deposit the client finds in a transaction; none in a failed one. -/
def L1Transaction.found (tx : L1Transaction) : Option DepositEvent :=
  if tx.failed then none else depositInTx tx.signature tx.log

theorem L1Transaction.found_eq_some_iff {tx : L1Transaction} {event : DepositEvent} :
    tx.found = some event ↔ tx.failed = false ∧ depositInTx tx.signature tx.log = some event := by
  unfold found
  cases tx.failed <;> simp

theorem fetchDeposits_eq {history : List L1Transaction}
    (hnodup : (history.map (·.signature)).Nodup) (after : Option String) :
    fetchDeposits history after =
      (getSignaturesForAddress history 100 after).reverse.filterMap L1Transaction.found := by
  refine List.filterMap_congr fun tx htx => ?_
  have hmem := getSignaturesForAddress_subset (List.mem_reverse.mp htx)
  rw [getTransactionLog_of_mem hnodup hmem]
  rfl

theorem fetchDeposits_none {history : List L1Transaction}
    (hnodup : (history.map (·.signature)).Nodup) :
    fetchDeposits history none =
      (history.drop (history.length - 100)).filterMap L1Transaction.found := by
  have hall : history.reverse.takeWhile (fun tx => decide (some tx.signature ≠ none)) =
      history.reverse := List.takeWhile_eq_self_iff.mpr fun _ _ => rfl
  rw [fetchDeposits_eq hnodup, getSignaturesForAddress, hall, List.reverse_take,
    List.reverse_reverse, List.length_reverse]

theorem mem_fetchDeposits {history : List L1Transaction}
    (hnodup : (history.map (·.signature)).Nodup) {after : Option String} {event : DepositEvent} :
    event ∈ fetchDeposits history after ↔
      ∃ tx ∈ getSignaturesForAddress history 100 after, tx.failed = false ∧
        depositInTx tx.signature tx.log = some event := by
  simp only [fetchDeposits_eq hnodup, List.mem_filterMap, List.mem_reverse,
    L1Transaction.found_eq_some_iff]

theorem fetchDeposits_backed_iff {history : List L1Transaction}
    (hnodup : (history.map (·.signature)).Nodup) (after : Option String) :
    (∀ event ∈ fetchDeposits history after, Backed history event) ↔
      ∀ tx ∈ getSignaturesForAddress history 100 after, tx.failed = false → Unforged tx := by
  constructor
  · intro h tx htx hfailed
    rw [← depositInTx_emitted_iff]
    intro event hfound
    obtain ⟨tx', htx', -, hmem⟩ := h event
      ((mem_fetchDeposits hnodup).mpr ⟨tx, htx, hfailed, hfound⟩)
    have hsig : tx'.signature = tx.signature :=
      (emitted_signature hmem).symm.trans (depositInTx_signature hfound)
    rwa [eq_of_signature_eq hnodup htx' (getSignaturesForAddress_subset htx) hsig] at hmem
  · intro h event hevent
    obtain ⟨tx, htx, hfailed, hfound⟩ := (mem_fetchDeposits hnodup).mp hevent
    exact ⟨tx, getSignaturesForAddress_subset htx, hfailed,
      (depositInTx_emitted_iff tx).mpr (h tx htx hfailed) event hfound⟩

end Zul.Bridge
