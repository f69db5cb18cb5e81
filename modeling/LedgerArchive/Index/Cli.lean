import LedgerArchive.Common.Address
import LedgerArchive.Export.Main
import LedgerArchive.Index.Paging

/-! # The commands over an index (`xrla-index/src/main.rs`)

    `query` prints a page and, when the page is full, the marker to go on
    from as text. A user who passes each marker back gets the whole history
    of the account (`session_eq`). -/

namespace LedgerArchive

open Lib

namespace Index

/-! ## Markers as text -/

/-- The digits of `u32::from_str`. -/
def u32_digits : List Char → Nat → Except Error Nat
  | [], n => .ok n
  | c :: s, n => do
    bail_if (c.isDigit = false) (.bail "invalid digit found in string")
    let n := n * 10 + (c.toNat - '0'.toNat)
    bail_if (n ≥ 2 ^ 32) (.bail "number too large to fit in target type")
    u32_digits s n

/-- `u32::from_str`: digits behind an optional plus sign. -/
def parse_u32 (s : List Char) : Except Error UInt32 := do
  bail_if (s = []) (.bail "cannot parse integer from empty string")
  bail_if (s = ['+']) (.bail "invalid digit found in string")
  let n ← u32_digits (if s.head? = some '+' then s.tail else s) 0
  pure (UInt32.ofNat n)

/-- A marker is split at its first colon. -/
def parse_marker (s : String) : Except Error Marker :=
  match s.toList.dropWhile (fun c => c ≠ ':') with
  | [] => .error (.bail s!"marker {s.quote} must look like LEDGER:TXN_SEQ")
  | _ :: t => do
    let ledger_seq ← parse_u32 (s.toList.takeWhile fun c => c ≠ ':')
    let txn_seq ← parse_u32 t
    pure { ledger_seq, txn_seq }

/-- `{}:{}` of the last row of a page. -/
def marker_text (r : AccountTxRow) : String :=
  toString r.ledger_seq.toNat ++ ":" ++ toString r.txn_seq.toNat

/-! ## The commands -/

/-- `query`: the rows it prints and the marker, if one is printed. -/
def query (sha256 : Bytes → Hash256) (ix : Index) (account : String) («from» «to» : Option UInt32)
    (limit : Nat) (forward : Bool) (marker : Option String) :
    Except Error (List AccountTxRow × Option String) := do
  let id ← classic_address_to_account_id sha256 account
  let min := «from».getD ix.info.start_ledger
  let max := «to».getD ix.info.end_ledger
  let marker ← marker.mapM parse_marker
  let rows := ix.account_tx id min max limit forward marker
  if rows.length = limit then do
    let last ← ok_or rows.getLast? .panic
    pure (rows, some (marker_text last))
  else pure (rows, none)

/-- `tx`: where the transaction is, if it is in the index. -/
def tx (ix : Index) (hash : String) : Except Error (Option (UInt32 × UInt32)) := do
  let bytes ← with_context s!"invalid hex: {hash}" (hex_decode (trim hash.toList))
  bail_if (bytes.length ≠ 32)
    (.bail s!"a transaction hash is 32 bytes (64 hex characters), got {bytes.length}")
  pure (ix.locate_tx (Hash256.ofBytes bytes))

/-- A user who passes every marker back to the same query: all that is
    printed. -/
def session (sha256 : Bytes → Hash256) (ix : Index) (account : String)
    («from» «to» : Option UInt32) (limit : Nat) (forward : Bool) :
    Nat → Option String → Except Error (List AccountTxRow)
  | 0, _ => .error .fuel
  | fuel + 1, marker => do
    let (rows, next) ← query sha256 ix account «from» «to» limit forward marker
    match next with
    | none => pure rows
    | some text => do
      let more ← session sha256 ix account «from» «to» limit forward fuel (some text)
      pure (rows ++ more)

/-! ## A marker reads back -/

theorem u32_digits_append {s t : List Char} {n m : Nat} (h : u32_digits s n = .ok m) :
    u32_digits (s ++ t) n = u32_digits t m := by
  induction s generalizing n with
  | nil =>
    cases h
    rfl
  | cons c s ih =>
    unfold u32_digits at h
    obtain ⟨hdigit, h⟩ := bail_if_bind_ok.mp h
    obtain ⟨hlt, h⟩ := bail_if_bind_ok.mp h
    rw [List.cons_append, u32_digits, bail_if_neg hdigit]
    show (bail_if _ _ >>= fun _ => _) = _
    rw [bail_if_neg hlt]
    exact ih h

theorem digitChar_read : ∀ d < 10,
    (Nat.digitChar d).isDigit = true ∧ (Nat.digitChar d).toNat - '0'.toNat = d := by
  decide

theorem u32_digits_digit {d n : Nat} (hd : d < 10) (hn : n * 10 + d < 2 ^ 32) :
    u32_digits [Nat.digitChar d] n = .ok (n * 10 + d) := by
  obtain ⟨hdigit, hvalue⟩ := digitChar_read d hd
  have hnot : ¬ (Nat.digitChar d).isDigit = false := by simp [hdigit]
  rw [u32_digits, bail_if_neg hnot]
  show (bail_if _ _ >>= fun _ => _) = _
  rw [hvalue, bail_if_neg (by omega)]
  rfl

/-- The number of a digit string, from the first digit on. -/
theorem u32_digits_toDigits {n : Nat} (hn : n < 2 ^ 32) :
    u32_digits (Nat.toDigits 10 n) 0 = .ok n := by
  induction n using Nat.strong_induction_on with
  | _ n ih =>
    rw [Nat.toDigits_eq_if (by decide)]
    split
    · next hlt =>
      rw [u32_digits_digit hlt (by omega)]
      simp
    · next hge =>
      have hhead := ih (n / 10) (by omega) (by omega)
      rw [u32_digits_append hhead, u32_digits_digit (by omega) (by omega)]
      congr 1
      omega

/-- A number that is printed is read back. -/
theorem parse_u32_toDigits (n : UInt32) : parse_u32 (Nat.toDigits 10 n.toNat) = .ok n := by
  have hdigits : ∀ c ∈ Nat.toDigits 10 n.toNat, c.isDigit = true := fun c hc =>
    Nat.isDigit_of_mem_toDigits (by decide) (by decide) hc
  have hplus : '+' ∉ Nat.toDigits 10 n.toNat := fun hc => absurd (hdigits _ hc) (by decide)
  have hone : Nat.toDigits 10 n.toNat ≠ ['+'] := fun hc => hplus (hc ▸ List.mem_cons_self)
  have hhead : ¬ (Nat.toDigits 10 n.toNat).head? = some '+' := fun hc =>
    hplus (List.mem_of_head? hc)
  unfold parse_u32
  rw [bail_if_neg Nat.toDigits_ne_nil]
  show (bail_if _ _ >>= fun _ => _) = _
  rw [bail_if_neg hone, if_neg hhead, u32_digits_toDigits n.toNat_lt]
  show Except.ok (UInt32.ofNat n.toNat) = _
  rw [UInt32.ofNat_toNat]

/-- The marker printed for a row is that row's marker. -/
theorem parse_marker_text (r : AccountTxRow) : parse_marker (marker_text r) = .ok r.marker := by
  -- The first colon is the one between the numbers.
  have hcolon : ∀ c ∈ Nat.toDigits 10 r.ledger_seq.toNat, decide (c ≠ ':') = true := by
    intro c hc
    have hdigit := Nat.isDigit_of_mem_toDigits (by decide) (by decide) hc
    rw [decide_eq_true_iff]
    rintro rfl
    exact absurd hdigit (by decide)
  have htext : (marker_text r).toList =
      Nat.toDigits 10 r.ledger_seq.toNat ++ ':' :: Nat.toDigits 10 r.txn_seq.toNat := by
    unfold marker_text
    simp
  have htake : (marker_text r).toList.takeWhile (fun c => c ≠ ':') =
      Nat.toDigits 10 r.ledger_seq.toNat := by
    rw [htext, List.takeWhile_append_of_pos hcolon]
    simp
  have hdrop : (marker_text r).toList.dropWhile (fun c => c ≠ ':') =
      ':' :: Nat.toDigits 10 r.txn_seq.toNat := by
    rw [htext, List.dropWhile_append_of_pos hcolon]
    simp
  unfold parse_marker
  rw [hdrop, htake]
  show (parse_u32 _ >>= fun _ => _) = _
  rw [parse_u32_toDigits]
  show (parse_u32 _ >>= fun _ => _) = _
  rw [parse_u32_toDigits]
  rfl

/-! ## The session -/

variable {sha256 : Bytes → Hash256} {ix : Index} {account : String} {id : AccountID}
  {«from» «to» : Option UInt32} {limit : Nat} {forward : Bool}

/-- A page that is not full is all that is left. -/
theorem page_not_full {min max : UInt32} (hlimit : 1 ≤ limit) (marker : Option Marker)
    (h : (ix.account_tx id min max limit forward marker).length ≠ limit) :
    ix.account_tx id min max limit forward marker = ix.history_after id min max forward marker := by
  rw [account_tx_page (Nat.ne_of_gt hlimit)] at h ⊢
  unfold sql_limit at h ⊢
  split
  · next hsmall =>
    rw [if_pos hsmall, List.length_take] at h
    exact List.take_of_length_le (by omega)
  · rfl

theorem query_full {text : Option String} {marker : Option Marker} {last : AccountTxRow}
    (hid : classic_address_to_account_id sha256 account = .ok id)
    (htext : text.mapM parse_marker = .ok marker)
    (hfull : (ix.account_tx id («from».getD ix.info.start_ledger) («to».getD ix.info.end_ledger)
      limit forward marker).length = limit)
    (hlast : (ix.account_tx id («from».getD ix.info.start_ledger)
      («to».getD ix.info.end_ledger) limit forward marker).getLast? = some last) :
    query sha256 ix account «from» «to» limit forward text =
      .ok (ix.account_tx id («from».getD ix.info.start_ledger) («to».getD ix.info.end_ledger)
        limit forward marker, some (marker_text last)) := by
  unfold query
  rw [bind_of_ok hid, bind_of_ok htext, if_pos hfull, bind_of_ok (ok_or_eq_ok.mpr hlast)]
  rfl

theorem query_last {text : Option String} {marker : Option Marker}
    (hid : classic_address_to_account_id sha256 account = .ok id)
    (htext : text.mapM parse_marker = .ok marker)
    (hfull : (ix.account_tx id («from».getD ix.info.start_ledger) («to».getD ix.info.end_ledger)
      limit forward marker).length ≠ limit) :
    query sha256 ix account «from» «to» limit forward text =
      .ok (ix.account_tx id («from».getD ix.info.start_ledger) («to».getD ix.info.end_ledger)
        limit forward marker, none) := by
  unfold query
  rw [bind_of_ok hid, bind_of_ok htext, if_neg hfull]
  rfl

/-- Passing every marker back prints the whole history, in order and once. -/
theorem session_eq (hid : classic_address_to_account_id sha256 account = .ok id)
    (hlimit : 1 ≤ limit) : ∃ fuel₀, ∀ fuel ≥ fuel₀,
      session sha256 ix account «from» «to» limit forward fuel none =
        .ok (ix.history id («from».getD ix.info.start_ledger) («to».getD ix.info.end_ledger)
          forward) := by
  let min := «from».getD ix.info.start_ledger
  let max := «to».getD ix.info.end_ledger
  have hpaged := @account_tx_paged ix id min max forward limit (Nat.ne_of_gt hlimit)
  -- Each full page leaves less behind its marker.
  have hloop : ∀ (fuel : Nat) (text : Option String) (marker : Option Marker),
      text.mapM parse_marker = .ok marker →
      (ix.history_after id min max forward marker).length < fuel →
      session sha256 ix account «from» «to» limit forward fuel text =
        .ok (ix.history_after id min max forward marker) := by
    intro fuel
    induction fuel with
    | zero =>
      intro _ _ _ hfuel
      omega
    | succ fuel ih =>
      intro text marker htext hfuel
      unfold session
      by_cases hfull : (ix.account_tx id min max limit forward marker).length = limit
      · have hne : ix.account_tx id min max limit forward marker ≠ [] := by
          intro hnil
          rw [hnil, List.length_nil] at hfull
          omega
        -- The marker of the last row is passed back.
        obtain ⟨last, hlast⟩ : ∃ last,
            (ix.account_tx id min max limit forward marker).getLast? = some last :=
          ⟨_, List.getLast?_eq_some_getLast hne⟩
        have hrest := hpaged.next marker _ hlast
        have hpos := List.length_pos_of_ne_nil hne
        rw [hrest, List.length_append] at hfuel
        have hback : (some (marker_text last)).mapM parse_marker = .ok (some last.marker) := by
          rw [Option.mapM_some, parse_marker_text]
          rfl
        have hmore := ih (some (marker_text last)) (some last.marker) hback (by omega)
        rw [bind_of_ok (query_full hid htext hfull hlast), hrest]
        show (session sha256 ix account «from» «to» limit forward fuel _ >>= _) = _
        rw [bind_of_ok hmore]
        rfl
      · rw [bind_of_ok (query_last hid htext hfull), page_not_full hlimit marker hfull]
        rfl
  exact ⟨(ix.history id min max forward).length + 1, fun fuel hfuel => hloop fuel none none rfl hfuel⟩

end Index

end LedgerArchive
