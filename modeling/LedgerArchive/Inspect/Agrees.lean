import LedgerArchive.Inspect.Scan

/-! # The index and the scan agree

    The account index is a faster way to the answers that the inspector
    gives by decoding the whole chunk. For a chunk that has been indexed the
    two print the same, whatever the account, the range, the page size and
    the direction (`index_agrees_with_inspect`). -/

namespace LedgerArchive

open Lib

namespace Inspect

variable {sha256 sha512half : Bytes → Hash256} {chunk : Chunk} {id : AccountID}

/-! ## Chunks that can be indexed -/

/-- The metadata of every transaction decodes and numbers it. -/
def Decoded (chunk : Chunk) : Prop :=
  ∀ m ∈ chunk.tx_maps, ∀ t ∈ m.txns, ∃ summary n, summarize_meta t.meta_blob = .ok summary ∧
    summary.transaction_index = some n

theorem decoded_of_indexed {s s' : Sink} (h : LedgersIndexed sha512half chunk.tx_maps s s') :
    Decoded chunk := by
  intro m hm t ht
  obtain ⟨indices, hindices, -⟩ := h.indices m hm
  have hnumbered : tx_index t ∈ indices.map some := hindices ▸ List.mem_map_of_mem ht
  obtain ⟨n, -, hn⟩ := List.mem_map.mp hnumbered
  unfold tx_index at hn
  cases hsummary : summarize_meta t.meta_blob with
  | error e =>
    rw [hsummary] at hn
    cases hn
  | ok summary =>
    rw [hsummary] at hn
    exact ⟨summary, n, rfl, hn.symm⟩

/-- The row of a transaction that touched the account. -/
def touch_row (id : AccountID) (m : TxMap) (t : TxRecord) : Option AccountTxRow :=
  if id ∈ LedgerArchive.affected_accounts t then
    (tx_index t).map fun n => { ledger_seq := m.ledger_seq, txn_seq := n, tx_hash := t.tx_hash }
  else none

/-- The history of the account in the chunk, in file order. -/
def touches (chunk : Chunk) (id : AccountID) : List AccountTxRow :=
  chunk.tx_maps.flatMap fun m => m.txns.flatMap fun t => (touch_row id m t).toList

theorem matching_eq (chunk : Chunk) (id : AccountID) (min max : UInt32) :
    chunk.matching id min max =
      (touches chunk id).filter fun r => min ≤ r.ledger_seq ∧ r.ledger_seq ≤ max := by
  unfold Chunk.matching touches
  rw [List.filter_flatMap]
  refine List.flatMap_congr fun m hm => ?_
  rw [List.filterMap_eq_flatMap_toList, List.filter_flatMap]
  refine List.flatMap_congr fun t ht => ?_
  unfold match_row touch_row
  by_cases hmem : id ∈ LedgerArchive.affected_accounts t
  · by_cases hrange : min ≤ m.ledger_seq ∧ m.ledger_seq ≤ max
    · rw [if_pos ⟨hrange.1, hrange.2, hmem⟩, if_pos hmem]
      cases tx_index t with
      | none => rfl
      | some n => simp [hrange]
    · rw [if_neg fun h => hrange ⟨h.1, h.2.1⟩, if_pos hmem]
      cases tx_index t with
      | none => rfl
      | some n => simp [hrange]
  · rw [if_neg fun h => hmem h.2.2, if_neg hmem]
    rfl

/-! ## What the inspector prints -/

/-- A transaction's summary, as the index reads it. -/
theorem Decoded.summary (hd : Decoded chunk) {m : TxMap} (hm : m ∈ chunk.tx_maps) {t : TxRecord}
    (ht : t ∈ m.txns) : ∃ summary n, summarize_meta t.meta_blob = .ok summary ∧
      summary.transaction_index = some n ∧ tx_index t = some n ∧
      LedgerArchive.affected_accounts t = summary.affected_accounts := by
  obtain ⟨summary, n, hsummary, hn⟩ := hd m hm t ht
  unfold tx_index LedgerArchive.affected_accounts
  rw [hsummary]
  exact ⟨summary, n, rfl, hn, hn, rfl⟩

theorem print_account_tx_eq (hd : Decoded chunk) {address : String}
    (haddress : account_id_to_classic_address sha256 id = address) :
    print_account_tx sha256 chunk address =
      { lines := (touches chunk id).map fun r => (r.ledger_seq, r.tx_hash), result := .ok () } := by
  have hlines : ∀ m ∈ chunk.tx_maps, ∀ t ∈ m.txns, (do
      let touched ← Inspect.affected_accounts t.meta_blob
      if touched.any fun a => account_id_to_classic_address sha256 a = address then
        pure [(m.ledger_seq, t.tx_hash)]
      else pure []) =
        (Except.ok ((touch_row id m t).toList.map fun r => (r.ledger_seq, r.tx_hash)) :
          Except Error (List (UInt32 × Hash256))) := by
    intro m hm t ht
    obtain ⟨summary, n, hsummary, -, hindex, haffected⟩ := hd.summary hm ht
    -- An account is told by its address.
    have htouched : (summary.affected_accounts.any fun a =>
        account_id_to_classic_address sha256 a = address) =
          decide (id ∈ summary.affected_accounts) := by
      rw [Bool.eq_iff_iff, List.any_eq_true, decide_eq_true_iff]
      constructor
      · rintro ⟨a, ha, heq⟩
        rw [decide_eq_true_iff, ← haddress] at heq
        exact classic_address_inj heq ▸ ha
      · intro hmem
        exact ⟨id, hmem, decide_eq_true haddress⟩
    unfold Inspect.affected_accounts touch_row
    rw [hsummary, haffected, hindex]
    show (if (summary.affected_accounts.any fun a =>
      decide (account_id_to_classic_address sha256 a = address)) = true then _ else _) = _
    rw [htouched]
    by_cases hmem : id ∈ summary.affected_accounts
    · rw [if_pos (decide_eq_true hmem), if_pos hmem]
      rfl
    · rw [if_neg (by simpa using hmem), if_neg hmem]
      rfl
  unfold print_account_tx touches
  rw [scan_chunk_eq hlines, List.map_flatMap]
  simp only [List.map_flatMap]
  rfl

/-- The lines of one transaction of `--accounts-file`. -/
def account_lines (sha256 : Bytes → Hash256) (wanted : List AccountID) (m : TxMap)
    (t : TxRecord) : List AccountLine :=
  ((LedgerArchive.affected_accounts t).filter fun a => a ∈ wanted).map fun a =>
    { account := account_id_to_classic_address sha256 a, ledger_seq := m.ledger_seq,
      txn_index := tx_index t, tx_hash := t.tx_hash }

theorem print_accounts_tx_eq (hd : Decoded chunk) {text : List String} {wanted : List AccountID}
    (hwanted : text.mapM (fun line => with_context s!"not a classic address: {line}"
      (classic_address_to_account_id sha256 line)) = .ok wanted) :
    print_accounts_tx sha256 chunk text =
      { lines := chunk.tx_maps.flatMap fun m => m.txns.flatMap (account_lines sha256 wanted m),
        result := .ok () } := by
  unfold print_accounts_tx
  rw [hwanted]
  dsimp only
  rw [@scan_chunk_eq _ _ (account_lines sha256 wanted)]
  · rfl
  · intro m hm t ht
    obtain ⟨summary, n, hsummary, hn, hindex, haffected⟩ := hd.summary hm ht
    unfold account_lines
    rw [hsummary, haffected, hindex, ← hn]
    rfl

/-- The lines of one address in the output for many. -/
theorem account_lines_filter {wanted : List AccountID} (hid : id ∈ wanted) {address : String}
    (haddress : account_id_to_classic_address sha256 id = address) (m : TxMap) {t : TxRecord}
    (ht : ∃ n, tx_index t = some n) :
    (account_lines sha256 wanted m t).filter (fun l => l.account = address) =
      (touch_row id m t).toList.map fun r =>
        { account := address, ledger_seq := r.ledger_seq, txn_index := some r.txn_seq,
          tx_hash := r.tx_hash } := by
  obtain ⟨n, hn⟩ := ht
  -- An account is told by its address.
  have hone : ∀ a, decide (account_id_to_classic_address sha256 a = address) = decide (a = id) := by
    intro a
    rw [decide_eq_decide, ← haddress]
    exact ⟨classic_address_inj, congrArg _⟩
  have hcount := affected_accounts_nodup t
  unfold account_lines touch_row
  rw [hn, List.filter_map, List.filter_filter]
  have hpick : (LedgerArchive.affected_accounts t).filter (fun a =>
      ((fun l : AccountLine => decide (l.account = address)) ∘ fun a =>
        (⟨account_id_to_classic_address sha256 a, m.ledger_seq, some n, t.tx_hash⟩ : AccountLine)) a &&
          decide (a ∈ wanted)) =
      (LedgerArchive.affected_accounts t).filter fun a => decide (a = id) := by
    congr 1
    funext a
    show (decide (account_id_to_classic_address sha256 a = address) && _) = _
    rw [hone]
    by_cases ha : a = id
    · simp [ha, hid]
    · simp [ha]
  rw [hpick]
  by_cases hmem : id ∈ LedgerArchive.affected_accounts t
  · -- The accounts of a transaction are listed once.
    rw [List.filter_eq, List.count_eq_one_of_mem hcount hmem, if_pos hmem]
    simp [haddress]
  · rw [List.filter_eq, List.count_eq_zero_of_not_mem hmem, if_neg hmem]
    rfl

/-! ## The index's answers -/

/-- The first ledger with the transaction. -/
theorem find_tx_eq_some {target : Hash256} {tx_maps : List TxMap} {seq : UInt32} {t : TxRecord}
    (h : find_tx target tx_maps = some (seq, t)) :
    ∃ m ∈ tx_maps, m.ledger_seq = seq ∧ t ∈ m.txns ∧ t.tx_hash = target := by
  induction tx_maps with
  | nil => cases h
  | cons m tx_maps ih =>
    unfold find_tx at h
    split at h
    · next tx hfind =>
      obtain ⟨rfl, rfl⟩ := Prod.mk.inj (Option.some.inj h)
      have hhash := List.find?_some hfind
      exact ⟨m, List.mem_cons_self, rfl, List.mem_of_find?_eq_some hfind, of_decide_eq_true hhash⟩
    · obtain ⟨m', hm', hrest⟩ := ih h
      exact ⟨m', List.mem_cons_of_mem _ hm', hrest⟩

theorem find_tx_eq_none {target : Hash256} {tx_maps : List TxMap}
    (h : find_tx target tx_maps = none) : ∀ m ∈ tx_maps, ∀ t ∈ m.txns, t.tx_hash ≠ target := by
  induction tx_maps with
  | nil => exact List.forall_mem_nil _
  | cons m tx_maps ih =>
    unfold find_tx at h
    split at h
    · cases h
    · next hfind =>
      refine List.forall_mem_cons.mpr ⟨fun t ht heq => ?_, ih h⟩
      exact List.find?_eq_none.mp hfind t ht (decide_eq_true heq)

/-- What an index says of itself. -/
theorem open_info {path : String} {file : IndexFile} {report : BuildReport} {index : Index}
    (hinfo : file.info = index_info report) (hopen : Index.open path file = .ok index) :
    index.info.start_ledger = report.start_ledger ∧ index.info.end_ledger = report.end_ledger := by
  have hnum : ∀ k n, (index_info report).rows.lookup k = some (toString n) →
      Index.num path file k = .ok n := by
    intro k n h
    have hget : Index.get path file k = .ok (toString n) := by
      unfold Index.get
      rw [hinfo, ok_or_eq_ok, h]
    unfold Index.num
    rw [bind_of_ok hget, ok_or_eq_ok]
    exact Nat.toNat?_repr n
  -- The other fields are read for their errors only.
  have hstart := hnum "start_ledger" report.start_ledger.toNat rfl
  have hend := hnum "end_ledger" report.end_ledger.toNat rfl
  unfold Index.open at hopen
  obtain ⟨_, -, hopen⟩ := bind_eq_ok.mp hopen
  obtain ⟨-, hopen⟩ := bail_if_bind_ok.mp hopen
  obtain ⟨_, -, hopen⟩ := bind_eq_ok.mp hopen
  obtain ⟨-, hopen⟩ := bail_if_bind_ok.mp hopen
  obtain ⟨_, -, hopen⟩ := bind_eq_ok.mp hopen
  obtain ⟨-, hopen⟩ := bail_if_bind_ok.mp hopen
  obtain ⟨_, -, hopen⟩ := bind_eq_ok.mp hopen
  rw [bind_of_ok hstart, bind_of_ok hend] at hopen
  obtain ⟨_, -, hopen⟩ := bind_eq_ok.mp hopen
  obtain ⟨_, -, hopen⟩ := bind_eq_ok.mp hopen
  obtain ⟨_, -, hopen⟩ := bind_eq_ok.mp hopen
  obtain ⟨_, -, hopen⟩ := bind_eq_ok.mp hopen
  rw [← pure_eq_ok.mp hopen]
  exact ⟨UInt32.ofNat_toNat, UInt32.ofNat_toNat⟩

/-- The range of an index is that of the chunk. -/
theorem report_range {exists_ force : Bool} {chunk_path out_path : String} {file body rest : Bytes}
    {index_file : IndexFile} {report : BuildReport} {header : ChunkHeader}
    (h : build_index sha512half exists_ force chunk_path out_path file = .ok (index_file, report))
    (hl : Layout file header body rest chunk) :
    report.start_ledger = chunk.start_ledger ∧ report.end_ledger = chunk.end_ledger := by
  obtain ⟨c, hopen, hheader, -, hread⟩ := layout_iff.mp hl
  obtain ⟨nodes, _, first, _, pairs, _, -, -, -, -, hchunk⟩ := HashingReader.read_body_ok.mp hread
  unfold build_index at h
  obtain ⟨-, h⟩ := bail_if_bind_ok.mp h
  rw [bind_of_ok (with_context_eq_ok.mpr hopen)] at h
  obtain ⟨_, -, h⟩ := bind_eq_ok.mp h
  obtain ⟨_, -, h⟩ := bind_eq_ok.mp h
  obtain ⟨_, -, h⟩ := bind_eq_ok.mp h
  obtain ⟨_, -, h⟩ := bind_eq_ok.mp h
  obtain ⟨-, h⟩ := bail_if_bind_ok.mp h
  obtain ⟨_, -, h⟩ := bind_eq_ok.mp h
  obtain ⟨-, hreport⟩ := Prod.mk.inj (pure_eq_ok.mp h)
  rw [← hreport, ← hchunk, ← hheader]
  exact ⟨rfl, rfl⟩

/-- The commands over the index print what the inspector prints. -/
structure Agrees (sha256 : Bytes → Hash256) (chunk : Chunk) (index : Index) : Prop where
  account : ∀ address id, classic_address_to_account_id sha256 address = .ok id →
    (print_account_tx sha256 chunk address).result = .ok ()
  accounts : ∀ text, (∀ line ∈ text, ∃ id, classic_address_to_account_id sha256 line = .ok id) →
    (print_accounts_tx sha256 chunk text).result = .ok () ∧
      ∀ l ∈ (print_accounts_tx sha256 chunk text).lines, l.account ∈ text
  session : ∀ address id, classic_address_to_account_id sha256 address = .ok id →
    ∀ «from» «to» limit forward, 1 ≤ limit →
      ∃ rows, (∃ fuel₀, ∀ fuel ≥ fuel₀,
          index.session sha256 address «from» «to» limit forward fuel none = .ok rows) ∧
        rows.Pairwise (AccountTxRow.precedes forward) ∧
        (rows.map fun r => (r.ledger_seq, r.tx_hash)).Perm
          ((print_account_tx sha256 chunk address).lines.filter fun l =>
            «from».getD chunk.start_ledger ≤ l.1 ∧ l.1 ≤ «to».getD chunk.end_ledger) ∧
        ∀ text, (∀ line ∈ text, ∃ id, classic_address_to_account_id sha256 line = .ok id) →
          address ∈ text →
          (rows.map fun r => (⟨address, r.ledger_seq, some r.txn_seq, r.tx_hash⟩ : AccountLine)).Perm
            ((print_accounts_tx sha256 chunk text).lines.filter fun l => l.account = address ∧
              «from».getD chunk.start_ledger ≤ l.ledger_seq ∧
              l.ledger_seq ≤ «to».getD chunk.end_ledger)
  tx : ∀ hash seq, (∃ n, index.tx hash = .ok (some (seq, n))) ↔
    ∃ t, print_tx_by_hash chunk hash = .ok (seq, t)

theorem wanted_accounts {text : List String}
    (h : ∀ line ∈ text, ∃ id, classic_address_to_account_id sha256 line = .ok id) :
    ∃ wanted, text.mapM (fun line => with_context s!"not a classic address: {line}"
        (classic_address_to_account_id sha256 line)) = .ok wanted ∧
      ∀ id, id ∈ wanted ↔ ∃ line ∈ text, classic_address_to_account_id sha256 line = .ok id := by
  induction text with
  | nil => exact ⟨[], rfl, by simp⟩
  | cons line text ih =>
    obtain ⟨⟨id, hid⟩, hrest⟩ := List.forall_mem_cons.mp h
    obtain ⟨wanted, hwanted, hmem⟩ := ih hrest
    refine ⟨id :: wanted, mapM_cons_ok.mpr ⟨id, wanted, with_context_eq_ok.mpr hid, hwanted, rfl⟩,
      fun a => ?_⟩
    rw [List.mem_cons, hmem, List.exists_mem_cons_iff, hid, Except.ok.injEq, eq_comm]

/-- The history that an index pages through is the one in the chunk. -/
theorem history_perm {index : Index} {s : Sink} (hi : Holds index s)
    (hl : LedgersIndexed sha512half chunk.tx_maps (Sink.new chunk.start_ledger) s)
    (id : AccountID) (min max : UInt32) (forward : Bool) :
    (index.history id min max forward).Perm ((touches chunk id).filter fun r =>
      min ≤ r.ledger_seq ∧ r.ledger_seq ≤ max) := by
  let limit := index.file.account_tx.rows.length + (chunk.matching id min max).length
  -- One page, large enough for all rows.
  have hall : index.account_tx id min max limit forward none = index.history id min max forward := by
    apply index.account_tx_eq
    exact (List.length_filter_le _ _).trans (Nat.le_add_right _ _)
  rw [← matching_eq, ← hall]
  exact (hi.account_tx hl id min max forward (Nat.le_add_left _ _)).1

/-- An index finds a transaction where the inspector finds it. -/
theorem locate_tx_iff {index : Index} {s : Sink} (hi : Holds index s)
    (hl : LedgersIndexed sha512half chunk.tx_maps (Sink.new chunk.start_ledger) s)
    (hash : Hash256) (seq : UInt32) :
    (∃ n, index.locate_tx hash = some (seq, n)) ↔
      ∃ t, find_tx hash chunk.tx_maps = some (seq, t) := by
  cases hfind : find_tx hash chunk.tx_maps with
  | none =>
    rw [hi.not_located hl (find_tx_eq_none hfind)]
    simp
  | some found =>
    obtain ⟨m, hm, hseq, ht, rfl⟩ := find_tx_eq_some (show _ = some (found.1, found.2) from hfind)
    obtain ⟨n, -, hloc⟩ := hi.located hl hm ht
    rw [hloc, hseq]
    constructor
    · rintro ⟨k, hk⟩
      exact ⟨found.2, by rw [← (Prod.mk.inj (Option.some.inj hk)).1]⟩
    · rintro ⟨t, ht⟩
      exact ⟨n, by rw [(Prod.mk.inj (Option.some.inj ht)).1]⟩

/-- Both commands read the text of a hash in one way. -/
theorem index_tx_ok {index : Index} {hash : String} {found : Option (UInt32 × UInt32)} :
    index.tx hash = .ok found ↔
      ∃ target, parse_hash hash = .ok target ∧ index.locate_tx target = found := by
  unfold Index.tx parse_hash
  simp only [bind_eq_ok, bail_if_eq_ok, pure_eq_ok, with_context_eq_ok]
  constructor
  · rintro ⟨bytes, hbytes, _, hlen, hfound⟩
    exact ⟨_, ⟨bytes, hbytes, (), hlen, rfl⟩, hfound⟩
  · rintro ⟨_, ⟨bytes, hbytes, _, hlen, rfl⟩, hfound⟩
    exact ⟨bytes, hbytes, (), hlen, hfound⟩

/-- An index that holds the rows of a chunk and has its range answers as
    the inspector does. -/
theorem agrees_of_holds (hz : ZeroAccountChecked sha256) {index : Index} {s : Sink}
    (hi : Holds index s)
    (hl : LedgersIndexed sha512half chunk.tx_maps (Sink.new chunk.start_ledger) s)
    (hstart : index.info.start_ledger = chunk.start_ledger)
    (hend : index.info.end_ledger = chunk.end_ledger) : Agrees sha256 chunk index where
  account address id hid := by
    rw [print_account_tx_eq (decoded_of_indexed hl) (account_of_classic_address hz hid)]
  accounts text htext := by
    obtain ⟨wanted, hwanted, hmem⟩ := wanted_accounts htext
    rw [print_accounts_tx_eq (decoded_of_indexed hl) hwanted]
    refine ⟨rfl, fun l hline => ?_⟩
    obtain ⟨m, -, hline⟩ := List.mem_flatMap.mp hline
    obtain ⟨t, -, hline⟩ := List.mem_flatMap.mp hline
    obtain ⟨a, ha, rfl⟩ := List.mem_map.mp hline
    obtain ⟨line, hline, hid⟩ := (hmem a).mp (of_decide_eq_true (List.mem_filter.mp ha).2)
    rw [account_of_classic_address hz hid]
    exact hline
  session address id hid «from» «to» limit forward hlimit := by
    have hd := decoded_of_indexed hl
    have haddress := account_of_classic_address hz hid
    have hperm := history_perm hi hl id («from».getD chunk.start_ledger)
      («to».getD chunk.end_ledger) forward
    refine ⟨_, Index.session_eq hid hlimit, Index.history_sorted, ?_, fun text htext hin => ?_⟩
    · rw [print_account_tx_eq hd haddress, hstart, hend, List.filter_map]
      exact hperm.map _
    · obtain ⟨wanted, hwanted, hmem⟩ := wanted_accounts htext
      -- First the lines of the address, then those of the range.
      have hline : (fun l : AccountLine => decide (l.account = address ∧
          «from».getD chunk.start_ledger ≤ l.ledger_seq ∧
          l.ledger_seq ≤ «to».getD chunk.end_ledger)) =
          fun l => decide («from».getD chunk.start_ledger ≤ l.ledger_seq ∧
            l.ledger_seq ≤ «to».getD chunk.end_ledger) && decide (l.account = address) := by
        funext l
        rw [Bool.eq_iff_iff, Bool.and_eq_true, decide_eq_true_iff, decide_eq_true_iff,
          decide_eq_true_iff, and_comm]
      have hmine : (chunk.tx_maps.flatMap fun m => m.txns.flatMap
          (account_lines sha256 wanted m)).filter (fun l => decide (l.account = address)) =
          (touches chunk id).map fun r =>
            { account := address, ledger_seq := r.ledger_seq, txn_index := some r.txn_seq,
              tx_hash := r.tx_hash } := by
        unfold touches
        rw [List.filter_flatMap, List.map_flatMap]
        refine List.flatMap_congr fun m hm => ?_
        rw [List.filter_flatMap, List.map_flatMap]
        refine List.flatMap_congr fun t ht => ?_
        obtain ⟨_, n, -, -, hn, -⟩ := hd.summary hm ht
        exact account_lines_filter ((hmem id).mpr ⟨address, hin, hid⟩) haddress m ⟨n, hn⟩
      rw [print_accounts_tx_eq hd hwanted, hline, ← List.filter_filter, hmine, hstart, hend,
        List.filter_map]
      exact hperm.map _
  tx hash seq := by
    constructor
    · rintro ⟨n, hn⟩
      obtain ⟨target, htarget, hloc⟩ := index_tx_ok.mp hn
      obtain ⟨t, hfind⟩ := (locate_tx_iff hi hl target seq).mp ⟨n, hloc⟩
      exact ⟨t, bind_eq_ok.mpr ⟨target, htarget, ok_or_eq_ok.mpr hfind⟩⟩
    · rintro ⟨t, ht⟩
      obtain ⟨target, htarget, hfind⟩ := bind_eq_ok.mp ht
      obtain ⟨n, hloc⟩ := (locate_tx_iff hi hl target seq).mpr ⟨t, ok_or_eq_ok.mp hfind⟩
      exact ⟨n, index_tx_ok.mpr ⟨target, htarget, hloc⟩⟩

/-- For a chunk that `build_index` has indexed, paging through the index
    prints what the inspector's scans of the chunk print, for every account,
    range, page size and direction. -/
theorem index_agrees_with_inspect {exists_ force : Bool} {chunk_path out_path : String}
    {file : Bytes} {index_file : IndexFile} {report : BuildReport} (hz : ZeroAccountChecked sha256)
    (hbuild : build_index sha512half exists_ force chunk_path out_path file =
      .ok (index_file, report))
    (hread : deserialize_chunk sha512half file = .ok chunk) :
    ∃ index, Index.open out_path index_file = .ok index ∧ Agrees sha256 chunk index := by
  obtain ⟨header, body, rest, built, s, hl, hfold, hfile⟩ := build_index_ok hbuild
  obtain ⟨_, _, _, hl', -⟩ := (deserialize_chunk_ok hl.version).mp hread
  obtain ⟨-, -, -, rfl⟩ := hl.unique hl'
  have hinfo : index_file.info = index_info report := by rw [hfile]
  obtain ⟨index, hopen, hindex⟩ := Index.open_built out_path hinfo
  obtain ⟨hstart, hend⟩ := open_info hinfo hopen
  obtain ⟨hstart', hend'⟩ := report_range hbuild hl
  refine ⟨index, hopen, agrees_of_holds hz ⟨?_, ?_⟩ (index_ledgers_ok hfold)
    (hstart.trans hstart') (hend.trans hend')⟩
  · rw [hindex, hfile]
  · rw [hindex, hfile]

/-- Ledgers 7 and 8 with three transactions that touch account 9. -/
def three_tx_chunk : Chunk :=
  let tx (tx_blob : Bytes) (index : UInt8) : TxRecord :=
    ⟨calculate_tx_id sha2_sha512half tx_blob, tx_blob, nine_meta.set 5 index⟩
  { network_id := 1, start_ledger := 7, end_ledger := 8, checkpoint_hash := ZERO_HASH,
    chunk_hash := ZERO_HASH, checkpoint := []
    deltas := [{ ledger_seq := 8, diff := { added := [], deleted := [] } }]
    tx_maps := [
      { empty_tx_map 7 ZERO_HASH ZERO_HASH with txns := [tx [1, 2] 1, tx [3, 4] 0] },
      { empty_tx_map 8 ZERO_HASH ZERO_HASH with txns := [tx [5, 6] 0] }] }

def three_tx_file : Bytes := (three_tx_chunk.write_stream.finish sha2_sha512half).2

def nine_address : String :=
  account_id_to_classic_address sha2_sha256 ⟨List.replicate 20 9, rfl⟩

theorem three_tx_file_built :
    (build_index sha2_sha512half false false "7.xrla" "7.idx" three_tx_file).toOption.isSome =
      true := by
  decide +kernel

theorem three_tx_file_scanned : (deserialize_chunk sha2_sha512half three_tx_file).toOption.map
    (fun chunk => ((print_account_tx sha2_sha256 chunk nine_address).lines.filter fun l =>
      chunk.start_ledger ≤ l.1 ∧ l.1 ≤ chunk.end_ledger).map Prod.fst) = some [7, 7, 8] := by
  decide +kernel

/-- Two rows a page, so the third transaction is behind a marker. -/
theorem index_agrees_with_inspect_three_txs : ∃ built chunk index,
    build_index sha2_sha512half false false "7.xrla" "7.idx" three_tx_file = .ok built ∧
      deserialize_chunk sha2_sha512half three_tx_file = .ok chunk ∧
      Index.open "7.idx" built.1 = .ok index ∧ Agrees sha2_sha256 chunk index ∧
      ∃ rows, (∃ fuel₀, ∀ fuel ≥ fuel₀,
          index.session sha2_sha256 nine_address none none 2 true fuel none = .ok rows) ∧
        (rows.map AccountTxRow.ledger_seq).Perm [7, 7, 8] := by
  have hzero : ZeroAccountChecked sha2_sha256 := by
    unfold ZeroAccountChecked
    decide +kernel
  have hnine : classic_address_to_account_id sha2_sha256 nine_address =
      .ok ⟨List.replicate 20 9, rfl⟩ := toOption_eq_some.mp (by decide +kernel)
  obtain ⟨built, hbuild⟩ := exists_ok_of_isSome three_tx_file_built
  obtain ⟨chunk, hread, hlines⟩ := Option.map_eq_some_iff.mp three_tx_file_scanned
  have hread := toOption_eq_some.mp hread
  obtain ⟨index, hopen, hagrees⟩ := index_agrees_with_inspect hzero hbuild hread
  obtain ⟨rows, hsession, -, hperm, -⟩ :=
    hagrees.session nine_address _ hnine none none 2 true (by decide)
  refine ⟨built, chunk, index, hbuild, hread, hopen, hagrees, rows, hsession, ?_⟩
  have hseqs := hperm.map Prod.fst
  rw [List.map_map] at hseqs
  exact hseqs.trans (.of_eq hlines)

end Inspect

end LedgerArchive
