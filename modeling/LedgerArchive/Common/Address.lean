import LedgerArchive.Common.MetaDecode
import LedgerArchive.Lib.Digits
import LedgerArchive.Lib.Sha256

/-! # Classic addresses (`xrla-common/src/meta_decode.rs`)

    An account is written as a base58 string of a version byte, its 20
    bytes and four bytes of a checksum. `sha256` is a parameter.

    Reading and writing convert a number of 25 bytes in place, and count the
    leading zeros apart, which the number does not hold. The one address that
    would not be read back is that of the account of zeros, if its checksum
    was zero too (`address_bijection`). -/

namespace LedgerArchive

open Lib

/-! ## Strings as bytes -/

/-- `s.bytes()`: the string in UTF-8. -/
def as_bytes (s : String) : Bytes := s.toUTF8.data.toList

theorem as_bytes_inj {s t : String} (h : as_bytes s = as_bytes t) : s = t := by
  apply String.toByteArray_inj.mp
  exact ByteArray.ext (Array.toList_inj.mp h)

/-- A string collected from bytes that are ASCII is those bytes. -/
theorem as_bytes_collect {bytes : Bytes} (h : ∀ b ∈ bytes, b.toNat < 128) :
    as_bytes (String.ofList (bytes.map Char.ofUInt8)) = bytes := by
  have hchars : (bytes.map Char.ofUInt8).flatMap String.utf8EncodeChar = bytes := by
    induction bytes with
    | nil => rfl
    | cons b bytes ih =>
      rw [List.forall_mem_cons] at h
      have hsize : (Char.ofUInt8 b).utf8Size = 1 := by
        rw [Char.utf8Size_eq_one_iff, UInt32.le_iff_toNat_le]
        show b.toUInt32.toNat ≤ 127
        rw [UInt8.toNat_toUInt32]
        omega
      rw [List.map_cons, List.flatMap_cons, String.utf8EncodeChar_eq_singleton hsize, ih h.2]
      show [b.toUInt32.toUInt8] ++ bytes = b :: bytes
      simp
  unfold as_bytes String.toUTF8
  rw [String.toByteArray_ofList]
  unfold List.utf8Encode
  rw [hchars, List.data_toByteArray]

/-! ## The base58 alphabet -/

/-- The XRPL base58 alphabet. Index 0 (`r`) is the digit zero. -/
def ALPHABET : Bytes := as_bytes "rpshnaf39wBUDNEGHJKLM4PQRST7VWXYZ2bcdeCg65jkm8oFqi1tuvAxyz"

/-- `ALPHABET[d as usize]`. -/
def letter (d : UInt8) : UInt8 := ALPHABET.getD d.toNat 0

/-- 58 letters, all different and all ASCII. -/
theorem alphabet_spec :
    ALPHABET.length = 58 ∧ ALPHABET.Nodup ∧ ∀ b ∈ ALPHABET, b.toNat < 128 := by
  decide +kernel

theorem getElem?_letter {d : UInt8} (hd : d.toNat < 58) :
    ALPHABET[d.toNat]? = some (letter d) := by
  have hlt : d.toNat < ALPHABET.length := alphabet_spec.1.symm ▸ hd
  unfold letter
  rw [List.getD_eq_getElem?_getD, List.getElem?_eq_getElem hlt, Option.getD_some]

theorem letter_mem {d : UInt8} (hd : d.toNat < 58) : letter d ∈ ALPHABET :=
  List.mem_of_getElem? (getElem?_letter hd)

/-- A letter stands at one position of the alphabet. -/
theorem position_unique {d : UInt8} {i : ℕ} (hd : d.toNat < 58)
    (h : ALPHABET[i]? = some (letter d)) : i = d.toNat := by
  have hi : i < ALPHABET.length := List.getElem?_eq_some_iff.mp h |>.1
  exact (List.getElem?_inj hi alphabet_spec.2.1).mp (h.trans (getElem?_letter hd).symm)

theorem letter_inj {d e : UInt8} (hd : d.toNat < 58) (he : e.toNat < 58)
    (h : letter d = letter e) : d = e :=
  UInt8.toNat_inj.mp (position_unique he (h ▸ getElem?_letter hd))

theorem map_letter_inj {ds es : Bytes} (hds : ∀ d ∈ ds, d.toNat < 58)
    (hes : ∀ e ∈ es, e.toNat < 58) (h : ds.map letter = es.map letter) : ds = es := by
  induction ds generalizing es with
  | nil => exact (List.map_eq_nil_iff.mp h.symm).symm
  | cons d ds ih =>
    cases es with
    | nil => cases h
    | cons e es =>
      rw [List.forall_mem_cons] at hds hes
      rw [List.map_cons, List.map_cons, List.cons.injEq] at h
      rw [letter_inj hds.1 hes.1 h.1, ih hds.2 hes.2 h.2]

/-- The position of a letter is its digit. -/
theorem idxOf_letter {d : UInt8} (hd : d.toNat < 58) :
    ALPHABET.idxOf? (letter d) = some d.toNat := by
  rw [List.idxOf?_eq_some_iff]
  obtain ⟨hlt, hget⟩ := List.getElem?_eq_some_iff.mp (getElem?_letter hd)
  refine ⟨hlt, hget, fun j hj hletter => ?_⟩
  have hjlt := Nat.lt_trans hj hlt
  have heq := position_unique hd (List.getElem?_eq_some_iff.mpr ⟨hjlt, hletter⟩)
  exact Nat.ne_of_lt hj heq

theorem idxOf_eq_some {ch : UInt8} {value : ℕ} (h : ALPHABET.idxOf? ch = some value) :
    value < 58 ∧ letter (UInt8.ofNat value) = ch := by
  obtain ⟨hlt, hch, -⟩ := List.idxOf?_eq_some_iff.mp h
  have hget : ALPHABET[value]? = some ch := List.getElem?_eq_some_iff.mpr ⟨hlt, hch⟩
  rw [alphabet_spec.1] at hlt
  have hvalue : (UInt8.ofNat value).toNat = value := by
    rw [UInt8.toNat_ofNat']
    omega
  refine ⟨hlt, ?_⟩
  unfold letter
  rw [hvalue, List.getD_eq_getElem?_getD, hget, Option.getD_some]

/-! ## The two conversions -/

/-- `v & 0xFF` and `v >> 8`: digits of base 256 out of base 58. -/
def from_base58 : Conversion where
  mul := 58
  radix := 256
  low v := (v &&& 0xFF).toUInt8
  high v := v >>> 8
  one_lt_radix := by decide
  low_eq v := by
    rw [UInt32.toNat_toUInt8, UInt32.toNat_and, show (0xFF : UInt32).toNat = 2 ^ 8 - 1 from rfl,
      Nat.and_two_pow_sub_one_eq_mod]
    omega
  high_eq v := by
    rw [UInt32.toNat_shiftRight, show (8 : UInt32).toNat % 32 = 8 from rfl, Nat.shiftRight_eq_div_pow]
  radix_le := by decide
  radix_mul_le := by decide

/-- `v % 58` and `v / 58`: digits of base 58 out of base 256. -/
def to_base58 : Conversion where
  mul := 256
  radix := 58
  low v := (v % 58).toUInt8
  high v := v / 58
  one_lt_radix := by decide
  low_eq v := by
    rw [UInt32.toNat_toUInt8, UInt32.toNat_mod, show (58 : UInt32).toNat = 58 from rfl]
    omega
  high_eq v := by
    rw [UInt32.toNat_div]
    rfl
  radix_le := by decide
  radix_mul_le := by decide

/-! ## Reading and writing an address -/

def hex_byte (b : UInt8) : String :=
  let digit (n : Nat) : String := (Nat.digitChar n).toString
  digit (b.toNat / 16) ++ digit (b.toNat % 16)

/-- `{:?}` of `ch as char`. -/
def char_debug (ch : UInt8) : String :=
  let text :=
    if ch = 0x00 then "\\0"
    else if ch = 0x09 then "\\t"
    else if ch = 0x0A then "\\n"
    else if ch = 0x0D then "\\r"
    else if ch = 0x27 then "\\'"
    else if ch = 0x5C then "\\\\"
    -- controls, the no-break space and the soft hyphen are not printable
    else if ch < 0x10 then "\\u\x7b" ++ (Nat.digitChar ch.toNat).toString ++ "\x7d"
    else if ch < 0x20 ∨ (0x7F ≤ ch ∧ ch ≤ 0xA0) ∨ ch = 0xAD then
      "\\u\x7b" ++ hex_byte ch ++ "\x7d"
    else (Char.ofUInt8 ch).toString
  "'" ++ text ++ "'"

def letter_value (ch : UInt8) : Except Error ℕ :=
  ok_or (ALPHABET.idxOf? ch) (.bail s!"invalid base58 character {char_debug ch} in address")

/-- One round of the loop over the letters. -/
def decode_letter (digits : Bytes) (ch : UInt8) : Except Error Bytes := do
  let value ← letter_value ch
  pure (from_base58.push digits (UInt32.ofNat value))

/-- The first four bytes of the double hash. -/
def address_checksum (sha256 : Bytes → Hash256) (payload : Bytes) : Bytes :=
  (sha256 (sha256 payload).bytes).bytes.take 4

/-- The checks of `classic_address_to_account_id`. -/
def check_payload (sha256 : Bytes → Hash256) (payload : Bytes) : Except Error AccountID := do
  bail_if (payload.length ≠ 25) (.bail s!"address decodes to {payload.length} bytes, expected 25")
  bail_if (payload.getD 0 0 ≠ 0x00)
    (.bail s!"not a classic account address (version byte 0x{hex_byte (payload.getD 0 0)})")
  bail_if (payload.drop 21 ≠ address_checksum sha256 (payload.take 21))
    (.bail "address checksum does not match (mistyped address?)")
  pure (AccountID.ofBytes ((payload.drop 1).take 20))

/-- Each leading `r` is a leading zero byte that the digits cannot hold. -/
def decoded_payload (address digits : Bytes) : Bytes :=
  let leading_zeros := (address.takeWhile (· = letter 0)).length
  List.replicate leading_zeros 0 ++ digits.reverse

def classic_address_to_account_id (sha256 : Bytes → Hash256) (address : String) :
    Except Error AccountID := do
  let digits ← (as_bytes address).foldlM decode_letter []
  check_payload sha256 (decoded_payload (as_bytes address) digits)

/-- The version byte, the account and the checksum. -/
def address_payload (sha256 : Bytes → Hash256) (account_id : AccountID) : Bytes :=
  (0x00 :: account_id.bytes) ++ address_checksum sha256 (0x00 :: account_id.bytes)

/-- The letters of a payload with the digits of its number. -/
def address_letters (payload digits : Bytes) : Bytes :=
  let leading_zeros := (payload.takeWhile (· = 0)).length
  List.replicate leading_zeros (letter 0) ++ digits.reverse.map letter

def account_id_to_classic_address (sha256 : Bytes → Hash256) (account_id : AccountID) : String :=
  let payload := address_payload sha256 account_id
  let digits := to_base58.convert [0] (payload.map UInt8.toUInt32)
  String.ofList ((address_letters payload digits).map Char.ofUInt8)

/-! ## What the two loops compute -/

theorem map_toNat_inj {a b : Bytes} (h : a.map UInt8.toNat = b.map UInt8.toNat) : a = b :=
  List.map_injective_iff.mpr (fun _ _ => UInt8.toNat_inj.mp) h

theorem bytes_lt (b : Bytes) : ∀ d ∈ b.map UInt8.toNat, d < 256 := by
  intro d hd
  obtain ⟨x, -, rfl⟩ := List.mem_map.mp hd
  exact x.toNat_lt

theorem ofNat_digit (d : UInt8) : UInt32.ofNat d.toNat = d.toUInt32 := by
  have hd := d.toNat_lt
  apply UInt32.toNat_inj.mp
  rw [UInt8.toNat_toUInt32, UInt32.toNat_ofNat']
  omega

theorem decode_letter_ok {digits out : Bytes} {ch : UInt8} :
    decode_letter digits ch = .ok out ↔
      ∃ d : UInt8, d.toNat < 58 ∧ ch = letter d ∧ out = from_base58.push digits d.toUInt32 := by
  unfold decode_letter letter_value
  simp only [bind_eq_ok, ok_or_eq_ok, pure_eq_ok]
  constructor
  · rintro ⟨value, hvalue, rfl⟩
    obtain ⟨hlt, hletter⟩ := idxOf_eq_some hvalue
    have htoNat : (UInt8.ofNat value).toNat = value := by
      rw [UInt8.toNat_ofNat']
      omega
    refine ⟨UInt8.ofNat value, htoNat.symm ▸ hlt, hletter.symm, ?_⟩
    rw [← ofNat_digit, htoNat]
  · rintro ⟨d, hd, rfl, rfl⟩
    exact ⟨d.toNat, idxOf_letter hd, by rw [ofNat_digit]⟩

/-- The letters of an address are those of digits, and the loop converts
    the digits. -/
theorem decode_letters_ok {address digits out : Bytes} :
    address.foldlM decode_letter digits = .ok out ↔
      ∃ ds : Bytes, (∀ d ∈ ds, d.toNat < 58) ∧ address = ds.map letter ∧
        out = from_base58.convert digits (ds.map UInt8.toUInt32) := by
  induction address generalizing digits with
  | nil =>
    rw [foldlM_nil_ok]
    constructor
    · rintro rfl
      exact ⟨[], List.forall_mem_nil _, rfl, rfl⟩
    · rintro ⟨ds, -, hnil, rfl⟩
      rw [List.map_eq_nil_iff.mp hnil.symm]
      rfl
  | cons ch address ih =>
    rw [foldlM_cons_ok]
    constructor
    · rintro ⟨next, hch, hrest⟩
      obtain ⟨d, hd, rfl, rfl⟩ := decode_letter_ok.mp hch
      obtain ⟨ds, hds, rfl, rfl⟩ := ih.mp hrest
      exact ⟨d :: ds, List.forall_mem_cons.mpr ⟨hd, hds⟩, rfl, rfl⟩
    · rintro ⟨ds, hds, hletters, rfl⟩
      cases ds with
      | nil => cases hletters
      | cons d ds =>
        rw [List.forall_mem_cons] at hds
        rw [List.map_cons, List.cons.injEq] at hletters
        obtain ⟨rfl, rfl⟩ := hletters
        exact ⟨_, decode_letter_ok.mpr ⟨d, hds.1, rfl, rfl⟩, ih.mpr ⟨ds, hds.2, rfl, rfl⟩⟩

/-- The payload read from letters: the same string in base 256. -/
theorem decoded_payload_eq {ds : Bytes} (hds : ∀ d ∈ ds, d.toNat < 58) :
    (decoded_payload (ds.map letter) (from_base58.convert [] (ds.map UInt8.toUInt32))).map
      UInt8.toNat = rebase 58 256 (ds.map UInt8.toNat) := by
  have hwords : (ds.map UInt8.toUInt32).map UInt32.toNat = ds.map UInt8.toNat := by
    rw [List.map_map]
    rfl
  have hvalues : ∀ v ∈ ds.map UInt8.toUInt32, v < from_base58.mul := by
    intro v hv
    obtain ⟨d, hd, rfl⟩ := List.mem_map.mp hv
    exact UInt32.lt_iff_toNat_lt.mpr (hds d hd)
  have hdigits := @Conversion.convert_digits from_base58 [] 0 _ rfl hvalues
  have hzeros : ((ds.map letter).takeWhile (· = letter 0)).length =
      leading_zeros (ds.map UInt8.toNat) := by
    rw [List.takeWhile_map, List.length_map]
    apply leading_zeros_map (p := fun d => letter d = letter 0)
    intro d hd
    constructor
    · intro h
      rw [letter_inj (hds d hd) (by decide) h]
      rfl
    · intro h
      rw [UInt8.toNat_inj.mp (show d.toNat = (0 : UInt8).toNat from h)]
  unfold decoded_payload
  rw [List.map_append, List.map_replicate, List.map_reverse, hdigits, hwords, hzeros]
  rfl

/-- The digits of the letters written for a payload. -/
def encoded_digits (payload : Bytes) : Bytes :=
  List.replicate (payload.takeWhile (· = 0)).length 0 ++
    (to_base58.convert [0] (payload.map UInt8.toUInt32)).reverse

theorem address_letters_eq (payload : Bytes) :
    address_letters payload (to_base58.convert [0] (payload.map UInt8.toUInt32)) =
      (encoded_digits payload).map letter := by
  unfold address_letters encoded_digits
  rw [List.map_append, List.map_replicate]

theorem bytes_below (payload : Bytes) :
    ∀ v ∈ payload.map UInt8.toUInt32, v < to_base58.mul := by
  intro v hv
  obtain ⟨b, -, rfl⟩ := List.mem_map.mp hv
  exact UInt32.lt_iff_toNat_lt.mpr b.toNat_lt

theorem zero_digit_lt : ∀ d ∈ ([0] : Bytes), d.toNat < to_base58.radix := by
  intro d hd
  rw [List.mem_singleton.mp hd]
  decide

theorem encoded_digits_lt (payload : Bytes) : ∀ d ∈ encoded_digits payload, d.toNat < 58 := by
  intro d hd
  rcases List.mem_append.mp hd with hd | hd
  · rw [List.eq_of_mem_replicate hd]
    decide
  · exact to_base58.convert_lt zero_digit_lt _ d (List.mem_reverse.mp hd)

/-- The digits written for a payload: the same string in base 58. -/
theorem encoded_digits_eq {payload : Bytes}
    (hne : digits_value 256 (payload.map UInt8.toNat) ≠ 0) :
    (encoded_digits payload).map UInt8.toNat = rebase 256 58 (payload.map UInt8.toNat) := by
  have hwords : (payload.map UInt8.toUInt32).map UInt32.toNat = payload.map UInt8.toNat := by
    rw [List.map_map]
    rfl
  have hdigits := to_base58.convert_zero_digits (bytes_below payload) (by rw [hwords]; exact hne)
  have hzeros : (payload.takeWhile (· = 0)).length = leading_zeros (payload.map UInt8.toNat) := by
    apply leading_zeros_map
    intro b _
    exact UInt8.toNat_inj.symm
  unfold encoded_digits
  rw [List.map_append, List.map_replicate, List.map_reverse, hdigits, hwords, hzeros]
  rfl

theorem encoded_ascii (payload : Bytes) :
    ∀ b ∈ (encoded_digits payload).map letter, b.toNat < 128 := by
  intro b hb
  obtain ⟨d, hd, rfl⟩ := List.mem_map.mp hb
  exact alphabet_spec.2.2 _ (letter_mem (encoded_digits_lt payload d hd))

/-- The bytes of an address are the letters of its digits. -/
theorem as_bytes_address (sha256 : Bytes → Hash256) (account_id : AccountID) :
    as_bytes (account_id_to_classic_address sha256 account_id) =
      (encoded_digits (address_payload sha256 account_id)).map letter := by
  show as_bytes (String.ofList ((address_letters _ _).map Char.ofUInt8)) = _
  rw [address_letters_eq, as_bytes_collect (encoded_ascii _)]

/-! ## The payload -/

theorem address_checksum_length (sha256 : Bytes → Hash256) (payload : Bytes) :
    (address_checksum sha256 payload).length = 4 := by
  unfold address_checksum
  rw [List.length_take, Hash256.length_eq]
  rfl

theorem address_payload_length (sha256 : Bytes → Hash256) (account_id : AccountID) :
    (address_payload sha256 account_id).length = 25 := by
  unfold address_payload
  rw [List.length_append, address_checksum_length, List.length_cons, account_id.length_eq]

theorem address_payload_inj {sha256 : Bytes → Hash256} {a b : AccountID}
    (h : address_payload sha256 a = address_payload sha256 b) : a = b := by
  have happend := List.append_inj_left' h
    ((address_checksum_length _ _).trans (address_checksum_length _ _).symm)
  exact AccountID.bytes_inj (List.cons.inj happend).2

/-- The checks let through the payload of the account they return, and
    nothing else. -/
theorem check_payload_ok {sha256 : Bytes → Hash256} {payload : Bytes} {id : AccountID} :
    check_payload sha256 payload = .ok id ↔ payload = address_payload sha256 id := by
  unfold check_payload
  simp only [bail_if_bind_ok, not_not, pure_eq_ok]
  constructor
  · rintro ⟨hlength, hversion, hchecksum, rfl⟩
    have hid : ((payload.drop 1).take 20).length = 20 := by simp [hlength]
    have hhead : payload.take 21 = 0 :: (payload.drop 1).take 20 := by
      cases payload with
      | nil => cases hlength
      | cons version payload =>
        rw [show version = 0 from hversion]
        rfl
    unfold address_payload
    rw [AccountID.bytes_ofBytes hid, ← hhead, ← hchecksum, List.take_append_drop]
  · rintro rfl
    have hlength := address_payload_length sha256 id
    have hhead : (0x00 :: id.bytes).length = 21 := by rw [List.length_cons, id.length_eq]
    refine ⟨hlength, rfl, ?_, ?_⟩
    · unfold address_payload
      rw [List.drop_left' hhead, List.take_left' hhead]
    · have htail : ((address_payload sha256 id).drop 1).take 20 = id.bytes := by
        show (id.bytes ++ _).take 20 = id.bytes
        exact List.take_left' id.length_eq
      rw [htail]
      exact AccountID.bytes_inj (AccountID.bytes_ofBytes id.length_eq)

/-- An address and its digits, from the account to the string. -/
theorem classic_address_ok {sha256 : Bytes → Hash256} {address : String} {id : AccountID} :
    classic_address_to_account_id sha256 address = .ok id ↔
      ∃ ds : Bytes, (∀ d ∈ ds, d.toNat < 58) ∧ as_bytes address = ds.map letter ∧
        rebase 58 256 (ds.map UInt8.toNat) = (address_payload sha256 id).map UInt8.toNat := by
  unfold classic_address_to_account_id
  rw [bind_eq_ok]
  constructor
  · rintro ⟨digits, hloop, hrest⟩
    obtain ⟨ds, hds, hletters, rfl⟩ := decode_letters_ok.mp hloop
    have hpayload := check_payload_ok.mp hrest
    rw [hletters] at hpayload
    exact ⟨ds, hds, hletters, by rw [← decoded_payload_eq hds, hpayload]⟩
  · rintro ⟨ds, hds, hletters, hrebase⟩
    refine ⟨_, decode_letters_ok.mpr ⟨ds, hds, hletters, rfl⟩, check_payload_ok.mpr ?_⟩
    rw [hletters]
    exact map_toNat_inj ((decoded_payload_eq hds).trans hrebase)

/-- The account of zeros has a checksum that is not zero. -/
def ZeroAccountChecked (sha256 : Bytes → Hash256) : Prop :=
  address_checksum sha256 (List.replicate 21 0) ≠ List.replicate 4 0

theorem address_payload_ne_zero {sha256 : Bytes → Hash256} (h : ZeroAccountChecked sha256)
    (id : AccountID) :
    digits_value 256 ((address_payload sha256 id).map UInt8.toNat) ≠ 0 := by
  intro hvalue
  have hzero := zeros_of_value (by decide) (bytes_lt _) hvalue
  have hpayload : address_payload sha256 id = List.replicate 25 0 := by
    rw [List.eq_replicate_iff]
    refine ⟨address_payload_length sha256 id, fun b hb => ?_⟩
    exact UInt8.toNat_inj.mp (hzero _ (List.mem_map_of_mem hb))
  have hlength : (0x00 :: id.bytes).length = 21 := by rw [List.length_cons, id.length_eq]
  obtain ⟨haccount, hchecksum⟩ := List.append_inj
    (hpayload.trans (List.replicate_add 21 4 0)) hlength
  rw [haccount] at hchecksum
  exact h hchecksum

/-! ## The two directions -/

theorem classic_address_of_account {sha256 : Bytes → Hash256} (h : ZeroAccountChecked sha256)
    (id : AccountID) :
    classic_address_to_account_id sha256 (account_id_to_classic_address sha256 id) = .ok id := by
  have hne := address_payload_ne_zero h id
  refine classic_address_ok.mpr ⟨encoded_digits (address_payload sha256 id),
    encoded_digits_lt _, as_bytes_address sha256 id, ?_⟩
  rw [encoded_digits_eq hne, rebase_rebase 58 (by decide) (bytes_lt _) hne]

theorem account_of_classic_address {sha256 : Bytes → Hash256} (h : ZeroAccountChecked sha256)
    {address : String} {id : AccountID}
    (hid : classic_address_to_account_id sha256 address = .ok id) :
    account_id_to_classic_address sha256 id = address := by
  obtain ⟨ds, hds, hletters, hrebase⟩ := classic_address_ok.mp hid
  have hne := address_payload_ne_zero h id
  have hdigits : ∀ d ∈ ds.map UInt8.toNat, d < 58 := by
    intro d hd
    obtain ⟨x, hx, rfl⟩ := List.mem_map.mp hd
    exact hds x hx
  have hvalue : digits_value 58 (ds.map UInt8.toNat) ≠ 0 := by
    rw [← rebase_value 58 256, hrebase]
    exact hne
  have hback : encoded_digits (address_payload sha256 id) = ds := by
    apply map_toNat_inj
    rw [encoded_digits_eq hne, ← hrebase, rebase_rebase 256 (by decide) hdigits hvalue]
  apply as_bytes_inj
  rw [as_bytes_address, hback, hletters]

/-! ## An account has one address -/

/-- The number that the letters spell is that of the payload, zero or not. -/
theorem encoded_digits_value (payload : Bytes) :
    digits_value 58 ((encoded_digits payload).map UInt8.toNat) =
      digits_value 256 (payload.map UInt8.toNat) := by
  by_cases hne : digits_value 256 (payload.map UInt8.toNat) = 0
  · have hpayload : payload = List.replicate payload.length 0 := by
      rw [List.eq_replicate_iff]
      refine ⟨rfl, fun b hb => ?_⟩
      exact UInt8.toNat_inj.mp
        (zeros_of_value (by decide) (bytes_lt payload) hne _ (List.mem_map_of_mem hb))
    have hdigits : to_base58.convert [0] (payload.map UInt8.toUInt32) = [0] := by
      rw [hpayload, List.map_replicate]
      exact to_base58.convert_zeros payload.length
    unfold encoded_digits
    rw [hne, hdigits, List.map_append, List.map_replicate]
    exact digits_value_zeros 58 _ [0]
  · rw [encoded_digits_eq hne, rebase_value]

/-- Different accounts have different addresses, whatever the hash is. -/
theorem classic_address_inj {sha256 : Bytes → Hash256} {a b : AccountID}
    (h : account_id_to_classic_address sha256 a = account_id_to_classic_address sha256 b) :
    a = b := by
  have hletters := congrArg as_bytes h
  rw [as_bytes_address, as_bytes_address] at hletters
  have hdigits : encoded_digits (address_payload sha256 a) =
      encoded_digits (address_payload sha256 b) :=
    map_letter_inj (encoded_digits_lt _) (encoded_digits_lt _) hletters
  have hvalue : digits_value 256 ((address_payload sha256 a).map UInt8.toNat) =
      digits_value 256 ((address_payload sha256 b).map UInt8.toNat) := by
    rw [← encoded_digits_value, hdigits, encoded_digits_value]
  rw [digits_value_eq, digits_value_eq] at hvalue
  -- the payloads are of one length, so their numbers tell them apart
  have hlength : ((address_payload sha256 a).map UInt8.toNat).reverse.length =
      ((address_payload sha256 b).map UInt8.toNat).reverse.length := by
    simp only [List.length_reverse, List.length_map, address_payload_length]
  have hreverse := Nat.ofDigits_inj_of_len_eq (by decide) hlength
    (fun d hd => bytes_lt _ d (List.mem_reverse.mp hd))
    (fun d hd => bytes_lt _ d (List.mem_reverse.mp hd)) hvalue
  exact address_payload_inj (map_toNat_inj (List.reverse_injective hreverse))

/-! ## The runs with overflow checks -/

def decode_letter_checked (digits : Bytes) (ch : UInt8) : Checked Error Bytes := do
  let value ← letter_value ch
  from_base58.push_checked digits (UInt32.ofNat value)

def classic_address_to_account_id_checked (sha256 : Bytes → Hash256) (address : String) :
    Checked Error AccountID := do
  let digits ← (as_bytes address).foldlM decode_letter_checked []
  check_payload sha256 (decoded_payload (as_bytes address) digits)

def account_id_to_classic_address_checked (sha256 : Bytes → Hash256) (account_id : AccountID) :
    Checked Error String := do
  let payload := address_payload sha256 account_id
  let digits ← to_base58.convert_checked [0] (payload.map UInt8.toUInt32)
  pure (String.ofList ((address_letters payload digits).map Char.ofUInt8))

theorem decode_letter_checked_run (digits : Bytes) (ch : UInt8) :
    (decode_letter_checked digits ch).run = some (decode_letter digits ch) := by
  unfold decode_letter_checked decode_letter
  cases hvalue : letter_value ch with
  | error e => rfl
  | ok value =>
    have hlt : UInt32.ofNat value < from_base58.mul := by
      have hdigit := (idxOf_eq_some (ok_or_eq_ok.mp hvalue)).1
      rw [UInt32.lt_iff_toNat_lt, UInt32.toNat_ofNat']
      show value % 2 ^ 32 < 58
      omega
    rw [Checked.run_bind_of_ok (Checked.run_lift (.ok value))]
    exact from_base58.push_checked_run (fun d _ => d.toNat_lt) hlt

theorem classic_address_checked_run (sha256 : Bytes → Hash256) (address : String) :
    (classic_address_to_account_id_checked sha256 address).run =
      some (classic_address_to_account_id sha256 address) := by
  have hloop := Checked.run_foldlM decode_letter_checked_run (as_bytes address) []
  unfold classic_address_to_account_id_checked classic_address_to_account_id
  rw [ExceptT.run_bind, hloop]
  cases (as_bytes address).foldlM decode_letter [] with
  | error e => rfl
  | ok digits => rfl

theorem account_id_checked_run (sha256 : Bytes → Hash256) (account_id : AccountID) :
    (account_id_to_classic_address_checked sha256 account_id).run =
      some (.ok (account_id_to_classic_address sha256 account_id)) := by
  unfold account_id_to_classic_address_checked
  rw [Checked.run_bind_of_ok (to_base58.convert_checked_run zero_digit_lt (bytes_below _))]
  rfl

/-- Addresses and accounts are one to one, each function undoes the other
    on what the other returns, and no `u32` of the conversions overflows. -/
theorem address_bijection {sha256 : Bytes → Hash256} (h : ZeroAccountChecked sha256) :
    (∀ id, classic_address_to_account_id sha256 (account_id_to_classic_address sha256 id) =
        .ok id) ∧
      (∀ address id, classic_address_to_account_id sha256 address = .ok id →
        account_id_to_classic_address sha256 id = address) ∧
      (∀ address address' id, classic_address_to_account_id sha256 address = .ok id →
        classic_address_to_account_id sha256 address' = .ok id → address = address') ∧
      (∀ address, (classic_address_to_account_id_checked sha256 address).run =
        some (classic_address_to_account_id sha256 address)) ∧
      (∀ id, (account_id_to_classic_address_checked sha256 id).run =
        some (.ok (account_id_to_classic_address sha256 id))) := by
  refine ⟨classic_address_of_account h, fun address id hid => account_of_classic_address h hid,
    fun address address' id hid hid' => ?_, classic_address_checked_run sha256,
    account_id_checked_run sha256⟩
  rw [← account_of_classic_address h hid, account_of_classic_address h hid']

/-- `sha256` as the `sha2` crate computes it. -/
def sha2_sha256 (data : Bytes) : Hash256 :=
  Hash256.ofBytes (Sha256.digest data)

theorem address_bijection_sha2 :
    ZeroAccountChecked sha2_sha256 ∧
      ∀ id, classic_address_to_account_id sha2_sha256
        (account_id_to_classic_address sha2_sha256 id) = .ok id := by
  have hzero : ZeroAccountChecked sha2_sha256 := by
    unfold ZeroAccountChecked
    decide +kernel
  exact ⟨hzero, (address_bijection hzero).1⟩

example : (classic_address_to_account_id sha2_sha256
    "rHb9CJAWyB4rj91VRWn96DkukG4bwdtyTh").toOption.map AccountID.bytes =
      some [0xB5, 0xF7, 0x62, 0x79, 0x8A, 0x53, 0xD5, 0x43, 0xA0, 0x14, 0xCA, 0xF8, 0xB2, 0x97,
        0xCF, 0xF8, 0xF2, 0xF9, 0x37, 0xE8] := by decide +kernel

end LedgerArchive
