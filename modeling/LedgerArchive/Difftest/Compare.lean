import LedgerArchive.Export.Main
import LedgerArchive.Import.TxDb

/-! # Comparing against xrpld's database (`xrla-difftest/src/main.rs`)

    The tool goes over the transactions of a `transaction.db` in a range of
    ledgers. For each of them it derives the affected accounts from the
    metadata and compares them with the rows of `AccountTransactions`; with
    an index it compares the index with the same rows. It counts mismatches
    and passes when there are none.

    The counts per transaction type and the examples, which are printed and
    not looked at, are left out. `u32` arithmetic wraps. -/

namespace LedgerArchive.Difftest

open Lib

structure Args where
  «from» : UInt32
  «to» : UInt32
  max_empty_ledgers : Int

/-- Transactions that may affect no account. -/
def PSEUDO_TYPES : List String := ["EnableAmendment", "SetFee", "UNLModify"]

/-! ## Queries -/

/-- `ORDER BY LedgerSeq, TransID`. -/
def id_order (tx : Transaction) : ℕ ×ₗ String := toLex (tx.ledger_seq.toNat, tx.trans_id)

/-- `WHERE LedgerSeq BETWEEN ?1 AND ?2`. -/
def in_range (args : Args) (seq : UInt32) : Bool := decide (args.from ≤ seq ∧ seq ≤ args.«to»)

def transactions (db : TransactionDb) (args : Args) : List Transaction :=
  db.transactions.select (fun tx => in_range args tx.ledger_seq) id_order true

/-- `SELECT Account, TxnSeq FROM AccountTransactions WHERE TransID = ?1`. -/
def rows_of (db : TransactionDb) (trans_id : String) : List AccountTransaction :=
  db.account_transactions.filter fun r => r.trans_id = trans_id

/-- `COUNT(DISTINCT LedgerSeq)`. -/
def ledgers_with_rows (db : TransactionDb) (args : Args) : Nat :=
  ((transactions db args).map Transaction.ledger_seq).toFinset.card

/-- The error of reading `NULL` as a number. -/
def null_txnseq : Error := .bail "Invalid column type Null at index: 1, name: TxnSeq"

/-! ## The decoder against the rows -/

/-- xrpld's answer. `txnseq` is the first number read. -/
structure Truth where
  accounts : Finset String
  txnseq : Option UInt32
  consistent : Bool

def Truth.empty : Truth := { accounts := ∅, txnseq := none, consistent := true }

def Truth.add (t : Truth) (account : String) (seq : UInt32) : Truth :=
  { accounts := insert account t.accounts,
    txnseq := t.txnseq.or (some seq),
    consistent := match t.txnseq with
      | none => t.consistent
      | some prev => if prev ≠ seq then false else t.consistent }

def read_truth (rows : List AccountTransaction) : Except Error Truth :=
  rows.foldlM (fun (t : Truth) r => do
    let seq ← ok_or r.txn_seq null_txnseq
    pure (t.add r.account seq)) .empty

structure Tally where
  total : Nat
  exact_ : Nat
  decode_errors : Nat
  missing_txs : Nat
  extra_txs : Nat
  missing_rows : Nat
  extra_rows : Nat
  txnseq_mismatch : Nat
  no_xrpld_rows : Nat
  unexplained_empty : Nat

def Tally.zero : Tally := ⟨0, 0, 0, 0, 0, 0, 0, 0, 0, 0⟩

/-- One more, if it is so. -/
def tick (p : Prop) [Decidable p] : Nat := if p then 1 else 0

variable (sha256 : Bytes → Hash256)

/-- `affected_accounts.iter().map(account_id_to_classic_address)`. -/
def addresses (accounts : List AccountID) : Finset String :=
  (accounts.map (account_id_to_classic_address sha256)).toFinset

def compare_transaction (db : TransactionDb) (c : Tally) (tx : Transaction) :
    Except Error Tally := do
  let truth ← read_truth (rows_of db tx.trans_id)
  let c := { c with
    total := c.total + 1, no_xrpld_rows := c.no_xrpld_rows + tick (truth.accounts = ∅) }
  match summarize_meta tx.txn_meta with
  | .error _ => pure { c with decode_errors := c.decode_errors + 1 }
  | .ok summary =>
    let ours := addresses sha256 summary.affected_accounts
    let missing := truth.accounts \ ours
    let extra := ours \ truth.accounts
    -- Nobody on either side looks like a match.
    let nobody := tick (truth.accounts = ∅ ∧ ours = ∅ ∧ tx.trans_type ∉ PSEUDO_TYPES)
    let txnseq := tick (truth.txnseq ≠ none ∧
      (truth.consistent = false ∨ summary.transaction_index ≠ truth.txnseq))
    let ok := nobody = 0 ∧ missing = ∅ ∧ extra = ∅ ∧ txnseq = 0
    pure { c with
      unexplained_empty := c.unexplained_empty + nobody
      missing_txs := c.missing_txs + tick (missing ≠ ∅)
      missing_rows := c.missing_rows + missing.card
      extra_txs := c.extra_txs + tick (extra ≠ ∅)
      extra_rows := c.extra_rows + extra.card
      txnseq_mismatch := c.txnseq_mismatch + txnseq
      exact_ := c.exact_ + tick ok }

/-- `rule_ok`. -/
def Tally.rule_ok (c : Tally) : Prop :=
  c.decode_errors = 0 ∧ c.missing_txs = 0 ∧ c.extra_txs = 0 ∧ c.txnseq_mismatch = 0 ∧
    c.unexplained_empty = 0

instance (c : Tally) : Decidable c.rule_ok := inferInstanceAs (Decidable (_ ∧ _))

/-! ## The index against the rows -/

/-- What an index says of a transaction. -/
structure Entry where
  ledger : UInt32
  txn_seq : UInt32
  accounts : Finset String

abbrev ByTx := Finmap fun _ : String => Entry

/-- `by_tx.entry(id).or_insert_with(..)`, then filled in. -/
def add_row (by_tx : ByTx) (r : AccountTx) : ByTx :=
  let id := hex_encode_upper r.tx_hash
  let accounts := match by_tx.lookup id with
    | some e => e.accounts
    | none => ∅
  by_tx.insert id { ledger := r.ledger_seq, txn_seq := r.txn_seq,
                    accounts := insert (account_id_to_classic_address sha256 r.account_id) accounts }

/-- Everything the index says about the range. -/
def index_entries (ix : Index) (args : Args) : ByTx :=
  (ix.file.account_tx.rows.filter fun r => in_range args r.ledger_seq).foldl (add_row sha256) ∅

/-- The accounts and the last number read. -/
def read_last (rows : List AccountTransaction) : Except Error (Finset String × Option UInt32) :=
  rows.foldlM (fun (t : Finset String × Option UInt32) r => do
    let seq ← ok_or r.txn_seq null_txnseq
    pure (insert r.account t.1, some seq)) (∅, none)

/-- `u8::from_str_radix` on two bytes. A leading plus is a sign. -/
def from_str_radix (hi lo : UInt8) : Option UInt8 := do
  let low ← hex_digit (Char.ofNat lo.toNat)
  if hi = 0x2B then pure (UInt8.ofNat low)
  else do
    let high ← hex_digit (Char.ofNat hi.toNat)
    pure (UInt8.ofNat (high * 16 + low))

/-- A byte inside the encoding of a character: a string cannot be cut
    before it. -/
def continuation (b : UInt8) : Bool := 0x80 ≤ b && b < 0xC0

def decode_pairs (s : String) : Bytes → Except Error Bytes
  | hi :: lo :: rest => do
    bail_if (continuation hi = true ∨ rest.head?.any continuation = true) .panic
    let byte ← ok_or (from_str_radix hi lo)
      (.context s!"bad hex in {s.quote}" (.bail "invalid digit found in string"))
    let bytes ← decode_pairs s rest
    pure (byte :: bytes)
  | _ => .ok []

def hex_decode (s : String) : Except Error Bytes := do
  let bytes := as_bytes s
  bail_if (bytes.length % 2 ≠ 0) (.bail s!"odd-length hex string {s.quote}")
  decode_pairs s bytes

/-- `SELECT ledger_seq, txn_seq FROM tx_locator WHERE tx_hash = ?1`. -/
def locate (ix : Index) (hash : Bytes) : Option (UInt32 × UInt32) :=
  (ix.file.tx_locator.rows.find? fun r => r.tx_hash.bytes = hash).map fun r =>
    (r.ledger_seq, r.txn_seq)

structure IndexTally where
  total : Nat
  exact_ : Nat
  idx_missing_tx : Nat
  idx_missing_rows : Nat
  idx_extra_tx : Nat
  idx_extra_rows : Nat
  seq_bad : Nat
  ledger_bad : Nat
  locator_bad : Nat
  not_in_index : Nat

def IndexTally.zero : IndexTally := ⟨0, 0, 0, 0, 0, 0, 0, 0, 0, 0⟩

/-- The comparison of an entry with the rows of its transaction. -/
def compare_entry (c : IndexTally) (truth : Finset String × Option UInt32) (ledger : UInt32) :
    Option Entry → IndexTally
  | none => { c with not_in_index := c.not_in_index + tick (truth.1 ≠ ∅) }
  | some e =>
    let missing := truth.1 \ e.accounts
    let extra := e.accounts \ truth.1
    { c with
      idx_missing_tx := c.idx_missing_tx + tick (missing ≠ ∅)
      idx_missing_rows := c.idx_missing_rows + missing.card
      idx_extra_tx := c.idx_extra_tx + tick (extra ≠ ∅)
      idx_extra_rows := c.idx_extra_rows + extra.card
      seq_bad := c.seq_bad + tick (truth.2 ≠ none ∧ truth.2 ≠ some e.txn_seq)
      ledger_bad := c.ledger_bad + tick (e.ledger ≠ ledger) }

/-- The locator is right: the ledger, and the number where xrpld has one. -/
def located_well (located : Option (UInt32 × UInt32)) (truth_seq : Option UInt32)
    (ledger : UInt32) : Bool :=
  match located, truth_seq with
  | some (l, s), some ts => l = ledger && s = ts
  | some (l, _), none => l = ledger
  | none, _ => false

/-- The counters that a match leaves alone. -/
def IndexTally.mismatches (c : IndexTally) : List Nat :=
  [c.idx_missing_tx, c.idx_extra_tx, c.not_in_index, c.seq_bad, c.ledger_bad, c.locator_bad]

def compare_entries (db : TransactionDb) (ix : Index) (acc : ByTx × IndexTally)
    (tx : Transaction) : Except Error (ByTx × IndexTally) := do
  let (by_tx, c) := acc
  let truth ← read_last (rows_of db tx.trans_id)
  let c' := compare_entry { c with total := c.total + 1 } truth tx.ledger_seq
    (by_tx.lookup tx.trans_id)
  let hash ← hex_decode tx.trans_id
  let bad := tick (located_well (locate ix hash) truth.2 tx.ledger_seq = false)
  let c' := { c' with locator_bad := c'.locator_bad + bad }
  pure (by_tx.erase tx.trans_id,
    { c' with exact_ := c'.exact_ + tick (c'.mismatches = c.mismatches) })

def compare_index (db : TransactionDb) (path : String) (file : IndexFile) (args : Args) :
    Except Error Bool := do
  let ix ← Index.open path file
  let (by_tx, c) ← (transactions db args).foldlM (compare_entries db ix)
    (index_entries sha256 ix args, .zero)
  let index_only := by_tx.keys.card
  pure (decide ((∀ n ∈ c.mismatches, n = 0) ∧ index_only = 0))

/-! ## The whole comparison -/

/-- `let index_ok = match &args.index`. -/
def index_ok (db : TransactionDb) (index : Option (String × IndexFile)) (args : Args) :
    Except Error Bool :=
  match index with
  | some (path, file) => compare_index sha256 db path file args
  | none => .ok true

/-- `main`, from the two files on. -/
def difftest (db : TransactionDb) (index : Option (String × IndexFile)) (args : Args) :
    Except Error Unit := do
  bail_if (args.«to» < args.from) (.bail "--from must be <= --to")
  let expected_ledgers : Int := (args.«to» - args.from + 1).toNat
  let empty_ledgers := expected_ledgers - ledgers_with_rows db args
  let tally ← (transactions db args).foldlM (compare_transaction sha256 db) .zero
  bail_if (args.max_empty_ledgers < empty_ledgers)
    (.bail (s!"{empty_ledgers} of {expected_ledgers} ledgers have no rows; refusing to report " ++
      "PASS on a partial range"))
  let index_ok ← index_ok sha256 db index args
  bail_if (¬ (tally.rule_ok ∧ index_ok = true)) (.bail "our results do not match xrpld's")

/-! ## What the comparison decides -/

@[simp] theorem tick_eq_zero {p : Prop} [Decidable p] : tick p = 0 ↔ ¬p := by
  unfold tick
  split
  · next h => simp [h]
  · next h => simp [h]

variable {sha256} {db : TransactionDb} {args : Args}

/-- The rows of a transaction that the database must have, as the metadata
    has it. -/
structure RuleMatches (sha256 : Bytes → Hash256) (db : TransactionDb) (tx : Transaction)
    (summary : MetaSummary) : Prop where
  decoded : summarize_meta tx.txn_meta = .ok summary
  accounts : ((rows_of db tx.trans_id).map AccountTransaction.account).toFinset =
    addresses sha256 summary.affected_accounts
  numbered : ∀ r ∈ rows_of db tx.trans_id, r.txn_seq ≠ none ∧
    r.txn_seq = summary.transaction_index
  someone : rows_of db tx.trans_id = [] → tx.trans_type ∈ PSEUDO_TYPES

theorem read_truth_from {rows : List AccountTransaction} {t t' : Truth}
    (h : rows.foldlM (fun (t : Truth) r => do
      let seq ← ok_or r.txn_seq null_txnseq
      pure (t.add r.account seq)) t = .ok t') :
    (∀ r ∈ rows, r.txn_seq ≠ none) ∧
      t'.accounts = t.accounts ∪ (rows.map AccountTransaction.account).toFinset ∧
      t'.txnseq = t.txnseq.or (rows.head?.bind AccountTransaction.txn_seq) ∧
      (t'.consistent = true ↔ t.consistent = true ∧ ∀ r ∈ rows, r.txn_seq = t'.txnseq) := by
  induction rows generalizing t with
  | nil =>
    rw [← foldlM_nil_ok.mp h]
    simp
  | cons r rows ih =>
    obtain ⟨t₁, ht₁, hrest⟩ := foldlM_cons_ok.mp h
    obtain ⟨seq, hseq, ht₁⟩ := bind_eq_ok.mp ht₁
    rw [ok_or_eq_ok] at hseq
    rw [← pure_eq_ok.mp ht₁] at hrest
    obtain ⟨hall, haccounts, htxnseq, hconsistent⟩ := ih hrest
    -- The number is that of the first row.
    have hfirst : t'.txnseq = t.txnseq.or (some seq) := by
      rw [htxnseq]
      show (t.txnseq.or (some seq)).or _ = _
      cases t.txnseq <;> rfl
    refine ⟨List.forall_mem_cons.mpr ⟨by simp [hseq], hall⟩, ?_, ?_, ?_⟩
    · rw [haccounts, List.map_cons, List.toFinset_cons, Finset.union_insert]
      exact Finset.insert_union _ _ _
    · rw [hfirst, List.head?_cons, Option.bind_some, hseq]
    · rw [hconsistent, List.forall_mem_cons, hseq, hfirst]
      cases ht : t.txnseq with
      | none => simp [Truth.add, ht]
      | some prev =>
        simp only [Truth.add, ht, Option.some_or, Option.some.injEq]
        by_cases hne : prev = seq
        · simp [hne]
        · simp [hne, Ne.symm hne]

theorem read_truth_ok {rows : List AccountTransaction} {t : Truth} (h : read_truth rows = .ok t) :
    (∀ r ∈ rows, r.txn_seq ≠ none) ∧
      t.accounts = (rows.map AccountTransaction.account).toFinset ∧
      (t.txnseq = none ↔ rows = []) ∧
      (t.consistent = true ↔ ∀ r ∈ rows, r.txn_seq = t.txnseq) := by
  obtain ⟨hall, haccounts, htxnseq, hconsistent⟩ := read_truth_from h
  refine ⟨hall, ?_, ?_, ?_⟩
  · rw [haccounts]
    exact Finset.empty_union _
  · rw [htxnseq]
    cases rows with
    | nil => simp [Truth.empty]
    | cons r rows => simp [Truth.empty, hall r List.mem_cons_self]
  · rw [hconsistent]
    simp [Truth.empty]

theorem read_truth_exists {rows : List AccountTransaction} (h : ∀ r ∈ rows, r.txn_seq ≠ none) :
    ∃ t, read_truth rows = .ok t := by
  apply foldlM_exists_ok
  intro r hr t
  obtain ⟨seq, hseq⟩ := Option.ne_none_iff_exists'.mp (h r hr)
  exact ⟨_, bind_eq_ok.mpr ⟨seq, ok_or_eq_ok.mpr hseq, rfl⟩⟩

/-- A transaction adds no mismatch when its rows are those of its metadata,
    and then only. -/
theorem compare_transaction_iff (c : Tally) (tx : Transaction) :
    (∃ c', compare_transaction sha256 db c tx = .ok c' ∧ c'.rule_ok) ↔
      c.rule_ok ∧ ∃ summary, RuleMatches sha256 db tx summary := by
  unfold compare_transaction
  cases htruth : read_truth (rows_of db tx.trans_id) with
  | error e =>
    -- A row without a number is an error, and no match.
    constructor
    · rintro ⟨c', hc', -⟩
      cases hc'
    · rintro ⟨-, summary, hm⟩
      obtain ⟨t, ht⟩ := read_truth_exists fun r hr => (hm.numbered r hr).1
      rw [htruth] at ht
      cases ht
  | ok truth =>
    obtain ⟨hall, haccounts, hnone, hconsistent⟩ := read_truth_ok htruth
    cases hmeta : summarize_meta tx.txn_meta with
    | error e =>
      constructor
      · rintro ⟨c', hc', hok⟩
        rw [← Except.ok.inj hc'] at hok
        exact absurd hok.1 (Nat.succ_ne_zero _)
      · rintro ⟨-, summary, hm⟩
        have hdecoded := hm.decoded
        rw [hmeta] at hdecoded
        cases hdecoded
    | ok summary =>
      have hrows : truth.accounts = ∅ ↔ rows_of db tx.trans_id = [] := by
        rw [haccounts]
        simp
      -- Neither missing nor extra accounts.
      have hsame : truth.accounts \ addresses sha256 summary.affected_accounts = ∅ ∧
          addresses sha256 summary.affected_accounts \ truth.accounts = ∅ ↔
            truth.accounts = addresses sha256 summary.affected_accounts := by
        rw [Finset.sdiff_eq_empty_iff_subset, Finset.sdiff_eq_empty_iff_subset]
        exact Finset.Subset.antisymm_iff.symm
      -- The numbers are all that of the metadata.
      have hseq : ¬ (truth.txnseq ≠ none ∧
          (truth.consistent = false ∨ summary.transaction_index ≠ truth.txnseq)) ↔
            ∀ r ∈ rows_of db tx.trans_id, r.txn_seq = summary.transaction_index := by
        rw [not_and, ne_eq, hnone, not_or, Bool.not_eq_false, not_not, hconsistent]
        constructor
        · intro h r hr
          obtain ⟨hone, hindex⟩ := h (List.ne_nil_of_mem hr)
          rw [hone r hr, hindex]
        · intro h hne
          obtain ⟨r, rows, heq⟩ := List.exists_cons_of_ne_nil hne
          have hfirst : truth.txnseq = r.txn_seq := by
            obtain ⟨-, -, htxnseq, -⟩ := read_truth_from htruth
            rw [htxnseq, heq]
            rfl
          have hr : r ∈ rows_of db tx.trans_id := by
            rw [heq]
            exact List.mem_cons_self
          exact ⟨fun q hq => by rw [h q hq, hfirst, h r hr], by rw [hfirst, h r hr]⟩
      have hstep : ∀ c', (pure c' : Except Error Tally) = .ok c' := fun _ => rfl
      constructor
      · rintro ⟨c', hc', hok⟩
        rw [← Except.ok.inj hc'] at hok
        obtain ⟨hdecode, hmissing, hextra, htxnseq, hempty⟩ := hok
        simp only [Nat.add_eq_zero_iff, tick_eq_zero, not_not] at hdecode hmissing hextra htxnseq hempty
        have heq := hsame.mp ⟨hmissing.2, hextra.2⟩
        refine ⟨⟨hdecode, hmissing.1, hextra.1, htxnseq.1, hempty.1⟩, summary, hmeta, ?_, ?_, ?_⟩
        · rw [← haccounts, heq]
        · intro r hr
          exact ⟨hall r hr, hseq.mp htxnseq.2 r hr⟩
        · intro hnil
          by_contra hpseudo
          have hempty' := hrows.mpr hnil
          exact hempty.2 ⟨hempty', heq.symm.trans hempty', hpseudo⟩
      · rintro ⟨hok, summary', hm⟩
        have hdecoded := hm.decoded
        rw [hmeta] at hdecoded
        cases hdecoded
        have heq : truth.accounts = addresses sha256 summary.affected_accounts := by
          rw [haccounts, hm.accounts]
        obtain ⟨hmissing, hextra⟩ := hsame.mpr heq
        obtain ⟨hdecode, hmissing₀, hextra₀, htxnseq₀, hempty₀⟩ := hok
        refine ⟨_, rfl, hdecode, ?_, ?_, ?_, ?_⟩
        · simp only [Nat.add_eq_zero_iff, tick_eq_zero, not_not]
          exact ⟨hmissing₀, hmissing⟩
        · simp only [Nat.add_eq_zero_iff, tick_eq_zero, not_not]
          exact ⟨hextra₀, hextra⟩
        · simp only [Nat.add_eq_zero_iff, tick_eq_zero]
          exact ⟨htxnseq₀, hseq.mpr fun r hr => (hm.numbered r hr).2⟩
        · simp only [Nat.add_eq_zero_iff, tick_eq_zero]
          refine ⟨hempty₀, fun hnobody => hnobody.2.2 (hm.someone (hrows.mp hnobody.1))⟩

/-! ## What the index says -/

variable {ix : Index}

def index_rows (ix : Index) (args : Args) (trans_id : String) : List AccountTx :=
  (ix.file.account_tx.rows.filter fun r => in_range args r.ledger_seq).filter fun r =>
    hex_encode_upper r.tx_hash = trans_id

/-- The entry of a transaction, from its rows in the index: the last one
    has the ledger and the number. -/
def entry_of (sha256 : Bytes → Hash256) (rows : List AccountTx) : Option Entry :=
  rows.getLast?.map fun r =>
    { ledger := r.ledger_seq, txn_seq := r.txn_seq,
      accounts := addresses sha256 (rows.map AccountTx.account_id) }

theorem lookup_add_rows (rows : List AccountTx) (id : String) :
    (rows.foldl (add_row sha256) ∅).lookup id =
      entry_of sha256 (rows.filter fun r => hex_encode_upper r.tx_hash = id) := by
  induction rows using List.reverseRecOn with
  | nil => rfl
  | append_singleton rows r ih =>
    rw [List.foldl_append, List.foldl_cons, List.foldl_nil, List.filter_append]
    generalize rows.foldl (add_row sha256) ∅ = by_tx at ih ⊢
    unfold add_row
    by_cases hid : hex_encode_upper r.tx_hash = id
    · -- The row belongs to the transaction: it is the last one now.
      rw [hid, Finmap.lookup_insert, ih]
      have hone : [r].filter (fun r => decide (hex_encode_upper r.tx_hash = id)) = [r] := by
        simp [hid]
      rw [hone]
      unfold entry_of
      rw [List.getLast?_concat, Option.map_some, Option.some.injEq, Entry.mk.injEq]
      refine ⟨rfl, rfl, ?_⟩
      unfold addresses
      rw [List.map_append, List.map_append, List.toFinset_append, Finset.union_comm]
      cases hlast : (rows.filter fun r => hex_encode_upper r.tx_hash = id).getLast? with
      | none =>
        rw [List.getLast?_eq_none_iff.mp hlast]
        simp
      | some q =>
        rw [Finset.insert_eq]
        rfl
    · rw [Finmap.lookup_insert_of_ne _ (Ne.symm hid), ih]
      have hnone : [r].filter (fun r => decide (hex_encode_upper r.tx_hash = id)) = [] := by
        simp [hid]
      rw [hnone, List.append_nil]

theorem mem_add_rows (rows : List AccountTx) (id : String) :
    id ∈ rows.foldl (add_row sha256) ∅ ↔ ∃ r ∈ rows, hex_encode_upper r.tx_hash = id := by
  rw [← Finmap.lookup_isSome, lookup_add_rows, entry_of, Option.isSome_map,
    List.getLast?_isSome]
  simp [List.filter_eq_nil_iff]

/-! ## What the comparison with the index decides -/

/-- The rows of a transaction and what the index has of it. -/
structure EntryMatches (sha256 : Bytes → Hash256) (db : TransactionDb) (ix : Index) (args : Args)
    (tx : Transaction) : Prop where
  numbered : ∀ r ∈ rows_of db tx.trans_id, r.txn_seq ≠ none
  accounts : ((rows_of db tx.trans_id).map AccountTransaction.account).toFinset =
    addresses sha256 ((index_rows ix args tx.trans_id).map AccountTx.account_id)
  last : ∀ r, (index_rows ix args tx.trans_id).getLast? = some r → r.ledger_seq = tx.ledger_seq ∧
    ∀ q, (rows_of db tx.trans_id).getLast? = some q → q.txn_seq = some r.txn_seq
  located : ∃ hash, hex_decode tx.trans_id = .ok hash ∧
    ∃ n, locate ix hash = some (tx.ledger_seq, n) ∧
      ∀ q, (rows_of db tx.trans_id).getLast? = some q → q.txn_seq = some n

theorem read_last_from {rows : List AccountTransaction}
    {t t' : Finset String × Option UInt32}
    (h : rows.foldlM (fun (t : Finset String × Option UInt32) r => do
      let seq ← ok_or r.txn_seq null_txnseq
      pure (insert r.account t.1, some seq)) t = .ok t') :
    (∀ r ∈ rows, r.txn_seq ≠ none) ∧
      t'.1 = t.1 ∪ (rows.map AccountTransaction.account).toFinset ∧
      t'.2 = (rows.getLast?.bind AccountTransaction.txn_seq).or t.2 := by
  induction rows generalizing t with
  | nil =>
    rw [← foldlM_nil_ok.mp h]
    simp
  | cons r rows ih =>
    obtain ⟨t₁, ht₁, hrest⟩ := foldlM_cons_ok.mp h
    obtain ⟨seq, hseq, ht₁⟩ := bind_eq_ok.mp ht₁
    rw [ok_or_eq_ok] at hseq
    rw [← pure_eq_ok.mp ht₁] at hrest
    obtain ⟨hall, haccounts, hlast⟩ := ih hrest
    refine ⟨List.forall_mem_cons.mpr ⟨by simp [hseq], hall⟩, ?_, ?_⟩
    · rw [haccounts, List.map_cons, List.toFinset_cons, Finset.union_insert]
      exact Finset.insert_union _ _ _
    · rw [hlast]
      cases rows with
      | nil => simp [hseq]
      | cons q rows =>
        rw [List.getLast?_cons_cons]
        -- There is a later row, and its number replaces this one's.
        obtain ⟨q', hq'⟩ := Option.isSome_iff_exists.mp
          (List.getLast?_isSome.mpr (List.cons_ne_nil q rows))
        obtain ⟨n, hn⟩ := Option.ne_none_iff_exists'.mp (hall q' (List.mem_of_getLast? hq'))
        rw [hq', Option.bind_some, hn]
        rfl

theorem read_last_ok {rows : List AccountTransaction} {t : Finset String × Option UInt32}
    (h : read_last rows = .ok t) :
    (∀ r ∈ rows, r.txn_seq ≠ none) ∧
      t.1 = (rows.map AccountTransaction.account).toFinset ∧
      t.2 = rows.getLast?.bind AccountTransaction.txn_seq := by
  obtain ⟨hall, haccounts, hlast⟩ := read_last_from h
  refine ⟨hall, ?_, ?_⟩
  · rw [haccounts]
    exact Finset.empty_union _
  · rw [hlast, Option.or_none]

theorem read_last_exists {rows : List AccountTransaction} (h : ∀ r ∈ rows, r.txn_seq ≠ none) :
    ∃ t, read_last rows = .ok t := by
  apply foldlM_exists_ok
  intro r hr t
  obtain ⟨seq, hseq⟩ := Option.ne_none_iff_exists'.mp (h r hr)
  exact ⟨_, bind_eq_ok.mpr ⟨seq, ok_or_eq_ok.mpr hseq, rfl⟩⟩

/-- No mismatch has been counted. -/
def IndexTally.clean (c : IndexTally) : Prop := ∀ n ∈ c.mismatches, n = 0

theorem IndexTally.clean_iff {c : IndexTally} : c.clean ↔ c.idx_missing_tx = 0 ∧
    c.idx_extra_tx = 0 ∧ c.not_in_index = 0 ∧ c.seq_bad = 0 ∧ c.ledger_bad = 0 ∧
      c.locator_bad = 0 := by
  simp [IndexTally.clean, IndexTally.mismatches]

/-- The last row's number is the one that is compared. -/
theorem last_number {rows : List AccountTransaction} {seq : Option UInt32} {n : UInt32}
    (hall : ∀ r ∈ rows, r.txn_seq ≠ none)
    (hseq : seq = rows.getLast?.bind AccountTransaction.txn_seq) :
    ¬ (seq ≠ none ∧ seq ≠ some n) ↔ ∀ q, rows.getLast? = some q → q.txn_seq = some n := by
  rw [hseq]
  cases hlast : rows.getLast? with
  | none => simp
  | some q =>
    have hq := hall q (List.mem_of_getLast? hlast)
    simp [hq]

/-- The counters of an entry stay as they are when it matches the rows. -/
theorem compare_entry_clean {rows : List AccountTransaction} {truth : Finset String × Option UInt32}
    (htruth : read_last rows = .ok truth) (c : IndexTally) (ledger : UInt32)
    (irows : List AccountTx) :
    (compare_entry c truth ledger (entry_of sha256 irows)).clean ↔ c.clean ∧
      (rows.map AccountTransaction.account).toFinset =
        addresses sha256 (irows.map AccountTx.account_id) ∧
      ∀ r, irows.getLast? = some r → r.ledger_seq = ledger ∧
        ∀ q, rows.getLast? = some q → q.txn_seq = some r.txn_seq := by
  obtain ⟨hall, haccounts, hseq⟩ := read_last_ok htruth
  rw [← haccounts]
  unfold entry_of
  cases hlast : irows.getLast? with
  | none =>
    -- No entry: clean only if no account is expected.
    rw [List.getLast?_eq_none_iff.mp hlast, Option.map_none, IndexTally.clean_iff,
      IndexTally.clean_iff]
    simp only [compare_entry, Nat.add_eq_zero_iff, tick_eq_zero, not_not, addresses]
    constructor
    · rintro ⟨hm, he, ⟨hn, hempty⟩, hs, hl, hloc⟩
      exact ⟨⟨hm, he, hn, hs, hl, hloc⟩, hempty, fun r hr => by cases hr⟩
    · rintro ⟨⟨hm, he, hn, hs, hl, hloc⟩, hempty, -⟩
      exact ⟨hm, he, ⟨hn, hempty⟩, hs, hl, hloc⟩
  | some r =>
    -- The entry of the last row, with no account missing and none extra.
    rw [Option.map_some, IndexTally.clean_iff, IndexTally.clean_iff]
    simp only [compare_entry, Nat.add_eq_zero_iff, tick_eq_zero, last_number hall hseq, not_not,
      Option.some.injEq, forall_eq', ne_eq]
    rw [Finset.sdiff_eq_empty_iff_subset, Finset.sdiff_eq_empty_iff_subset]
    constructor
    · rintro ⟨⟨hm, hsub⟩, ⟨he, hsup⟩, hn, ⟨hs, hnumber⟩, ⟨hl, hledger⟩, hloc⟩
      exact ⟨⟨hm, he, hn, hs, hl, hloc⟩, hsub.antisymm hsup, hledger, hnumber⟩
    · rintro ⟨⟨hm, he, hn, hs, hl, hloc⟩, heq, hledger, hnumber⟩
      exact ⟨⟨hm, heq.subset⟩, ⟨he, heq.superset⟩, hn, ⟨hs, hnumber⟩, ⟨hl, hledger⟩, hloc⟩

theorem located_well_iff {located : Option (UInt32 × UInt32)} {rows : List AccountTransaction}
    {truth : Finset String × Option UInt32} (htruth : read_last rows = .ok truth)
    (ledger : UInt32) :
    located_well located truth.2 ledger = true ↔ ∃ n, located = some (ledger, n) ∧
      ∀ q, rows.getLast? = some q → q.txn_seq = some n := by
  obtain ⟨hall, -, hseq⟩ := read_last_ok htruth
  rw [hseq]
  unfold located_well
  cases located with
  | none => simp
  | some loc =>
    obtain ⟨l, s⟩ := loc
    cases hlast : rows.getLast? with
    | none => simp
    | some q =>
      obtain ⟨n, hn⟩ := Option.ne_none_iff_exists'.mp (hall q (List.mem_of_getLast? hlast))
      simp only [Option.bind_some, hn, Bool.and_eq_true, decide_eq_true_eq, Option.some.injEq,
        Prod.mk.injEq, forall_eq']
      constructor
      · rintro ⟨rfl, rfl⟩
        exact ⟨s, ⟨rfl, rfl⟩, rfl⟩
      · rintro ⟨m, ⟨rfl, rfl⟩, rfl⟩
        exact ⟨rfl, rfl⟩

/-- One transaction: its entry is taken out of the map, and the counters
    stay clean when it matches. -/
theorem compare_entries_ok {by_tx : ByTx} {c : IndexTally} {tx : Transaction}
    {acc : ByTx × IndexTally}
    (hentry : by_tx.lookup tx.trans_id = entry_of sha256 (index_rows ix args tx.trans_id))
    (h : compare_entries db ix (by_tx, c) tx = .ok acc) :
    acc.1 = by_tx.erase tx.trans_id ∧
      (acc.2.clean ↔ c.clean ∧ EntryMatches sha256 db ix args tx) := by
  unfold compare_entries at h
  obtain ⟨truth, htruth, h⟩ := bind_eq_ok.mp h
  obtain ⟨hash, hhash, h⟩ := bind_eq_ok.mp h
  rw [hentry] at h
  rw [← pure_eq_ok.mp h]
  refine ⟨rfl, ?_⟩
  have hcompared := @compare_entry_clean sha256 _ _ htruth
    { c with total := c.total + 1 } tx.ledger_seq (index_rows ix args tx.trans_id)
  generalize compare_entry { c with total := c.total + 1 } truth tx.ledger_seq
    (entry_of sha256 (index_rows ix args tx.trans_id)) = c' at hcompared ⊢
  -- The locator is counted on top of what the entry has added.
  have hclean : ∀ bad ok, ({ c' with
      locator_bad := c'.locator_bad + bad, exact_ := ok } : IndexTally).clean ↔
      c'.clean ∧ bad = 0 := by
    intro bad ok
    rw [IndexTally.clean_iff, IndexTally.clean_iff]
    show _ ∧ _ ∧ _ ∧ _ ∧ _ ∧ c'.locator_bad + bad = 0 ↔ _
    rw [Nat.add_eq_zero_iff]
    tauto
  have hstart : ({ c with total := c.total + 1 } : IndexTally).clean ↔ c.clean := Iff.rfl
  rw [hclean, hcompared, tick_eq_zero, Bool.not_eq_false, located_well_iff htruth, hstart]
  constructor
  · rintro ⟨⟨hc, haccounts, hlast⟩, hlocated⟩
    exact ⟨hc, (read_last_ok htruth).1, haccounts, hlast, hash, hhash, hlocated⟩
  · rintro ⟨hc, hm⟩
    obtain ⟨hash', hhash', hlocated⟩ := hm.located
    rw [hhash] at hhash'
    cases hhash'
    exact ⟨⟨hc, hm.accounts, hm.last⟩, hlocated⟩

theorem compare_entries_exists (acc : ByTx × IndexTally) {tx : Transaction}
    (hm : EntryMatches sha256 db ix args tx) : ∃ acc', compare_entries db ix acc tx = .ok acc' := by
  obtain ⟨truth, htruth⟩ := read_last_exists hm.numbered
  obtain ⟨hash, hhash, -⟩ := hm.located
  exact ⟨_, bind_eq_ok.mpr ⟨truth, htruth, bind_eq_ok.mpr ⟨hash, hhash, rfl⟩⟩⟩

/-- All transactions: every one of them matches, and no entry is left that
    belongs to none of them. -/
theorem compare_all_iff {txs : List Transaction} (hnd : (txs.map Transaction.trans_id).Nodup)
    {by_tx : ByTx} {c : IndexTally} (hentries : ∀ tx ∈ txs,
      by_tx.lookup tx.trans_id = entry_of sha256 (index_rows ix args tx.trans_id)) :
    (∃ acc, txs.foldlM (compare_entries db ix) (by_tx, c) = .ok acc ∧ acc.2.clean ∧
        acc.1.keys.card = 0) ↔
      c.clean ∧ (∀ tx ∈ txs, EntryMatches sha256 db ix args tx) ∧
        ∀ id ∈ by_tx, id ∈ txs.map Transaction.trans_id := by
  induction txs generalizing by_tx c with
  | nil =>
    have hempty : by_tx.keys.card = 0 ↔ ∀ id ∈ by_tx, id ∈ ([] : List String) := by
      rw [Finset.card_eq_zero, Finset.eq_empty_iff_forall_notMem]
      simp only [Finmap.mem_keys, List.not_mem_nil, imp_false]
    constructor
    · rintro ⟨acc, hacc, hclean, hcard⟩
      have heq := foldlM_nil_ok.mp hacc
      subst heq
      exact ⟨hclean, List.forall_mem_nil _, hempty.mp hcard⟩
    · rintro ⟨hclean, -, hleft⟩
      exact ⟨(by_tx, c), rfl, hclean, hempty.mpr hleft⟩
  | cons tx txs ih =>
    rw [List.map_cons] at hnd
    obtain ⟨hfresh, hnd⟩ := List.nodup_cons.mp hnd
    obtain ⟨hentry, hothers⟩ := List.forall_mem_cons.mp hentries
    -- Taking out one entry leaves those of the other transactions.
    have hrest : ∀ tx' ∈ txs, (by_tx.erase tx.trans_id).lookup tx'.trans_id =
        entry_of sha256 (index_rows ix args tx'.trans_id) := by
      intro tx' htx'
      have hne : tx'.trans_id ≠ tx.trans_id := fun heq => hfresh (heq ▸ List.mem_map_of_mem htx')
      rw [Finmap.lookup_erase_ne hne]
      exact hothers tx' htx'
    have hleft : (∀ id ∈ by_tx.erase tx.trans_id, id ∈ txs.map Transaction.trans_id) ↔
        ∀ id ∈ by_tx, id ∈ (tx :: txs).map Transaction.trans_id := by
      simp only [Finmap.mem_erase, List.map_cons, List.mem_cons]
      constructor
      · intro h id hid
        by_cases heq : id = tx.trans_id
        · exact .inl heq
        · exact .inr (h id ⟨heq, hid⟩)
      · rintro h id ⟨hne, hid⟩
        exact (h id hid).resolve_left hne
    rw [List.forall_mem_cons, ← hleft]
    constructor
    · rintro ⟨acc, hacc, hclean, hcard⟩
      obtain ⟨⟨by_tx₁, c₁⟩, hstep, hacc⟩ := foldlM_cons_ok.mp hacc
      obtain ⟨herase, hiff⟩ := compare_entries_ok hentry hstep
      have herase : by_tx₁ = by_tx.erase tx.trans_id := herase
      subst herase
      obtain ⟨hclean₁, hall, hnone⟩ := (ih hnd hrest).mp ⟨acc, hacc, hclean, hcard⟩
      obtain ⟨hc, hm⟩ := hiff.mp hclean₁
      exact ⟨hc, ⟨hm, hall⟩, hnone⟩
    · rintro ⟨hc, ⟨hm, hall⟩, hnone⟩
      obtain ⟨⟨by_tx₁, c₁⟩, hstep⟩ := compare_entries_exists (by_tx, c) hm
      obtain ⟨herase, hiff⟩ := compare_entries_ok hentry hstep
      have herase : by_tx₁ = by_tx.erase tx.trans_id := herase
      subst herase
      obtain ⟨acc, hacc, hend⟩ := (ih hnd hrest).mpr ⟨hiff.mpr ⟨hc, hm⟩, hall, hnone⟩
      exact ⟨acc, foldlM_cons_ok.mpr ⟨_, hstep, hacc⟩, hend⟩

/-- The index has what the database has in the range, and nothing else. -/
structure IndexMatches (sha256 : Bytes → Hash256) (db : TransactionDb) (ix : Index) (args : Args) :
    Prop where
  entries : ∀ tx ∈ transactions db args, EntryMatches sha256 db ix args tx
  only : ∀ r ∈ ix.file.account_tx.rows, in_range args r.ledger_seq = true →
    ∃ tx ∈ transactions db args, tx.trans_id = hex_encode_upper r.tx_hash

theorem transactions_perm (db : TransactionDb) (args : Args) : (transactions db args).Perm
    (db.transactions.rows.filter fun tx => in_range args tx.ledger_seq) :=
  db.transactions.select_perm true

theorem transactions_nodup (db : TransactionDb) (args : Args) :
    ((transactions db args).map Transaction.trans_id).Nodup := by
  rw [((transactions_perm db args).map Transaction.trans_id).nodup_iff]
  exact db.transactions.primary.sublist (List.filter_sublist.map _)

theorem compare_index_ok {path : String} {file : IndexFile} :
    compare_index sha256 db path file args = .ok true ↔
      ∃ ix, Index.open path file = .ok ix ∧ IndexMatches sha256 db ix args := by
  have hall : ∀ ix : Index, (∃ acc, (transactions db args).foldlM (compare_entries db ix)
      (index_entries sha256 ix args, .zero) = .ok acc ∧ acc.2.clean ∧ acc.1.keys.card = 0) ↔
      IndexMatches sha256 db ix args := by
    intro ix
    have hzero : IndexTally.zero.clean := by
      simp [IndexTally.clean_iff, IndexTally.zero]
    unfold index_entries
    rw [@compare_all_iff sha256 db args ix _ (transactions_nodup db args) _ _
      fun tx _ => lookup_add_rows _ _]
    simp only [mem_add_rows, List.mem_filter]
    constructor
    · rintro ⟨-, hentries, honly⟩
      refine ⟨hentries, fun r hr hrange => ?_⟩
      obtain ⟨tx, htx, heq⟩ := List.mem_map.mp (honly _ ⟨r, ⟨hr, hrange⟩, rfl⟩)
      exact ⟨tx, htx, heq⟩
    · rintro ⟨hentries, honly⟩
      refine ⟨hzero, hentries, ?_⟩
      rintro id ⟨r, ⟨hr, hrange⟩, rfl⟩
      obtain ⟨tx, htx, heq⟩ := honly r hr hrange
      exact List.mem_map.mpr ⟨tx, htx, heq⟩
  unfold compare_index
  simp only [bind_eq_ok, Prod.exists, pure_eq_ok, decide_eq_true_eq]
  constructor
  · rintro ⟨ix, hopen, by_tx, c, hfold, hclean, hcard⟩
    exact ⟨ix, hopen, (hall ix).mp ⟨_, hfold, hclean, hcard⟩⟩
  · rintro ⟨ix, hopen, hm⟩
    obtain ⟨⟨by_tx, c⟩, hfold, hclean, hcard⟩ := (hall ix).mpr hm
    exact ⟨ix, hopen, by_tx, c, hfold, hclean, hcard⟩

/-! ## The verdict -/

/-- No more ledgers without transactions than allowed. The number of
    ledgers of the range wraps to zero for all of `u32`. -/
def Covered (db : TransactionDb) (args : Args) : Prop :=
  ((args.«to» - args.from + 1).toNat : Int) - ledgers_with_rows db args ≤ args.max_empty_ledgers

/-- The tool passes if and only if the database has, for every transaction
    in the range, the accounts and the number of its metadata, and the index
    has the same. -/
theorem difftest_ok_iff (sha256 : Bytes → Hash256) (db : TransactionDb)
    (index : Option (String × IndexFile)) (args : Args) :
    difftest sha256 db index args = .ok () ↔
      args.from ≤ args.«to» ∧ Covered db args ∧
        (∀ tx ∈ transactions db args, ∃ summary, RuleMatches sha256 db tx summary) ∧
        ∀ path file, index = some (path, file) →
          ∃ ix, Index.open path file = .ok ix ∧ IndexMatches sha256 db ix args := by
  have hrule : (∃ tally, (transactions db args).foldlM (compare_transaction sha256 db) .zero =
      .ok tally ∧ tally.rule_ok) ↔
      ∀ tx ∈ transactions db args, ∃ summary, RuleMatches sha256 db tx summary := by
    rw [foldlM_exists_iff compare_transaction_iff]
    exact and_iff_right (by simp [Tally.rule_ok, Tally.zero])
  have hindex : index_ok sha256 db index args = .ok true ↔
      ∀ path file, index = some (path, file) →
        ∃ ix, Index.open path file = .ok ix ∧ IndexMatches sha256 db ix args := by
    unfold index_ok
    cases index with
    | none => simp
    | some entry =>
      obtain ⟨path, file⟩ := entry
      rw [compare_index_ok]
      constructor
      · rintro h _ _ heq
        cases heq
        exact h
      · intro h
        exact h path file rfl
  unfold difftest
  rw [← hrule, bail_if_bind_ok, UInt32.not_lt]
  refine and_congr_right fun _ => ?_
  simp only [bind_eq_ok, bail_if_eq_ok, not_lt, not_not]
  constructor
  · rintro ⟨tally, htally, -, hcovered, ok, hok, hclean, rfl⟩
    exact ⟨hcovered, ⟨tally, htally, hclean⟩, hindex.mp hok⟩
  · rintro ⟨hcovered, ⟨tally, htally, hclean⟩, hix⟩
    exact ⟨tally, htally, (), hcovered, true, hindex.mpr hix, hclean, rfl⟩

end LedgerArchive.Difftest
