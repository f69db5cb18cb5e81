import LedgerArchive.Common.StObject

/-! # The decoder finds the affected accounts

    A cursor goes past an encoding (`Cursor.Past`). Every function of the
    decoder, on the encoding of a value, succeeds exactly when the value has
    what the function needs, and then goes past the encoding and returns
    what the value says. The lemmas follow the values: an object's fields
    one after the other, and the values inside by the same lemma. -/

namespace LedgerArchive

open Lib

namespace Cursor

variable {c c' c'' : Cursor} {x y : Bytes}

/-! ## Going past an encoding -/

/-- `c'` is the cursor behind the bytes `x` at `c`. -/
def Past (c : Cursor) (x : Bytes) (c' : Cursor) : Prop :=
  c'.b = c.b ∧ c.rest = x ++ c'.rest

theorem Past.unique (h : c.Past x c') (h' : c.Past x c'') : c' = c'' := by
  have hrest : c'.rest = c''.rest := List.append_cancel_left (h.2.symm.trans h'.2)
  have hlen := congrArg List.length hrest
  rw [rest_length, rest_length, h.1, h'.1] at hlen
  have hle := c'.i_le
  have hle' := c''.i_le
  rw [h.1] at hle
  rw [h'.1] at hle'
  obtain ⟨b, i, _⟩ := c'
  obtain ⟨b', i', _⟩ := c''
  obtain rfl : b = b' := h.1.trans h'.1.symm
  obtain rfl : i = i' := by
    dsimp only at hlen hle hle'
    omega
  rfl

theorem past_append : c.Past (x ++ y) c'' ↔ ∃ c', c.Past x c' ∧ c'.Past y c'' := by
  constructor
  · intro h
    have hlen := congrArg List.length h.2
    rw [rest_length, List.length_append, List.length_append] at hlen
    have hle := c.i_le
    refine ⟨⟨c.b, c.i + x.length, by omega⟩, ⟨rfl, ?_⟩, h.1, ?_⟩
    · show c.rest = x ++ c.b.drop (c.i + x.length)
      rw [← List.drop_drop]
      show c.rest = x ++ c.rest.drop x.length
      rw [h.2, List.append_assoc, List.drop_left' rfl]
    · show c.b.drop (c.i + x.length) = y ++ c''.rest
      rw [← List.drop_drop]
      show c.rest.drop x.length = y ++ c''.rest
      rw [h.2, List.append_assoc, List.drop_left' rfl]
  · intro h
    obtain ⟨c', h, h'⟩ := h
    refine ⟨h'.1.trans h.1, ?_⟩
    rw [h.2, h'.2, List.append_assoc]

theorem take_past {n : Nat} (h : c.Past x c') (hn : x.length = n) : c.take n = .ok (x, c') := by
  obtain ⟨hb, hrest⟩ := h
  have hlen := congrArg List.length hrest
  rw [rest_length, List.length_append, rest_length, hb] at hlen
  have hle := c.i_le
  have hle' := c'.i_le
  rw [hb] at hle'
  have hfits : c.i + n ≤ c.b.length := by omega
  unfold take
  rw [dif_pos hfits]
  have hx : (c.b.drop c.i).take n = x := by
    show c.rest.take n = x
    rw [hrest, List.take_left' hn]
  have hc : (⟨c.b, c.i + n, hfits⟩ : Cursor) = c' := by
    obtain ⟨b', i', _⟩ := c'
    dsimp only at hb hlen
    subst hb
    congr 1
    dsimp only at hle'
    omega
  rw [hx, hc]

theorem byte_past {b : UInt8} (h : c.Past [b] c') : c.byte = .ok (b, c') :=
  bind_of_ok (take_past h rfl) _

theorem pass_past {n : Nat} (h : c.Past x c') (hn : x.length = n) : c.pass n = .ok c' :=
  bind_of_ok (take_past h hn) _

theorem peek_past {b : UInt8} (h : c.Past (b :: x) c') : c.peek = .ok b := by
  unfold peek
  rw [ok_or_eq_ok]
  have hhead : c.rest[0]? = some b := by
    rw [h.2]
    rfl
  unfold rest at hhead
  rwa [List.getElem?_drop, Nat.add_zero] at hhead

/-- A cursor that has something before it is not at the end. -/
theorem eof_past (h : c.Past x c') (hx : x ≠ []) : c.eof = false := by
  have hlen := congrArg List.length h.2
  rw [rest_length, List.length_append] at hlen
  have hpos := List.length_pos_iff.mpr hx
  have hlt : ¬ c.i ≥ c.b.length := by omega
  simpa [eof] using hlt

/-! ## Headers and lengths -/

theorem past_cons {b : UInt8} : c.Past (b :: x) c'' ↔ ∃ c', c.Past [b] c' ∧ c'.Past x c'' :=
  @past_append c c'' [b] x

theorem read_vl_len_past {len : Nat} (hlen : len ≤ VL_LENGTH_MAX)
    (h : c.Past (vl_length_bytes len) c') : c.read_vl_len = .ok (len, c') := by
  unfold VL_LENGTH_MAX at hlen
  have hbyte : ∀ {n : Nat}, n < 256 → (UInt8.ofNat n).toNat = n := UInt8.toNat_ofNat_of_lt'
  unfold vl_length_bytes at h
  unfold read_vl_len
  by_cases h1 : len ≤ 192
  · rw [if_pos h1] at h
    rw [bind_of_ok (byte_past h)]
    dsimp only
    rw [hbyte (by omega), if_pos h1]
    rfl
  by_cases h2 : len ≤ 12480
  · rw [if_neg h1, if_pos h2] at h
    obtain ⟨c₁, hc₁, h⟩ := past_cons.mp h
    rw [bind_of_ok (byte_past hc₁)]
    dsimp only
    rw [hbyte (by omega), if_neg (by omega), if_pos (by omega), bind_of_ok (byte_past h)]
    dsimp only
    rw [hbyte (by omega), pure_eq_ok, Prod.mk.injEq]
    exact ⟨by omega, rfl⟩
  · rw [if_neg h1, if_neg h2] at h
    obtain ⟨c₁, hc₁, h⟩ := past_cons.mp h
    obtain ⟨c₂, hc₂, h⟩ := past_cons.mp h
    rw [bind_of_ok (byte_past hc₁)]
    dsimp only
    rw [hbyte (by omega), if_neg (by omega), if_neg (by omega), bind_of_ok (byte_past hc₂)]
    dsimp only
    rw [bind_of_ok (byte_past h)]
    dsimp only
    rw [hbyte (by omega), hbyte (by omega), pure_eq_ok, Prod.mk.injEq]
    exact ⟨by omega, rfl⟩

/-- A blob is read: its length, then its bytes. -/
theorem vl_past {data : Bytes} (hlen : data.length ≤ VL_LENGTH_MAX)
    (h : c.Past (write_vl data) c') :
    ∃ c₁, c.read_vl_len = .ok (data.length, c₁) ∧ c₁.Past data c' := by
  obtain ⟨c₁, hc₁, h⟩ := past_append.mp h
  exact ⟨c₁, read_vl_len_past hlen hc₁, h⟩

theorem or_next_byte_self {code : Nat} (h : 1 ≤ code) : c.or_next_byte code = .ok (code, c) := by
  unfold or_next_byte
  rw [if_neg (by omega)]
  rfl

theorem or_next_byte_past {code : Nat} (hle : code ≤ 255) (h : c.Past [UInt8.ofNat code] c') :
    c.or_next_byte 0 = .ok (code, c') := by
  have hbyte : (UInt8.ofNat code).toNat = code := UInt8.toNat_ofNat_of_lt' (by
    show code < 256
    omega)
  unfold or_next_byte
  rw [if_pos rfl, bind_of_ok (byte_past h)]
  dsimp only
  rw [hbyte]
  rfl

theorem read_field_header_past {t f : Nat} (ht : 1 ≤ t ∧ t ≤ 255) (hf : 1 ≤ f ∧ f ≤ 255)
    (h : c.Past (field_header t f) c') : c.read_field_header = .ok ((t, f), c') := by
  have hbyte : ∀ {n : Nat}, n < 256 → (UInt8.ofNat n).toNat = n := UInt8.toNat_ofNat_of_lt'
  -- One lemma for the three shapes: what the first byte leaves to be read.
  have hread : ∀ {b : UInt8} {c₁ c₂ : Cursor}, c.byte = .ok (b, c₁) →
      c₁.or_next_byte (b.toNat / 16) = .ok (t, c₂) → c₂.or_next_byte (b.toNat % 16) = .ok (f, c') →
      c.read_field_header = .ok ((t, f), c') := by
    intro b c₁ c₂ h1 h2 h3
    unfold read_field_header
    rw [bind_of_ok h1]
    dsimp only
    rw [bind_of_ok h2]
    dsimp only
    rw [bind_of_ok h3]
    rfl
  unfold field_header at h
  by_cases h1 : t < 16
  · by_cases h2 : f < 16
    · rw [if_pos h1, if_pos h2] at h
      have hhigh : (t * 16 + f) / 16 = t := by omega
      have hlow : (t * 16 + f) % 16 = f := by omega
      refine @hread _ _ c' (byte_past h) ?_ ?_
      · rw [hbyte (by omega), hhigh]
        exact or_next_byte_self ht.1
      · rw [hbyte (by omega), hlow]
        exact or_next_byte_self hf.1
    · rw [if_pos h1, if_neg h2] at h
      obtain ⟨c₁, hc₁, h⟩ := past_cons.mp h
      have hhigh : t * 16 / 16 = t := by omega
      have hlow : t * 16 % 16 = 0 := by omega
      refine @hread _ _ c₁ (byte_past hc₁) ?_ ?_
      · rw [hbyte (by omega), hhigh]
        exact or_next_byte_self ht.1
      · rw [hbyte (by omega), hlow]
        exact or_next_byte_past hf.2 h
  · by_cases h2 : f < 16
    · rw [if_neg h1, if_pos h2] at h
      obtain ⟨c₁, hc₁, h⟩ := past_cons.mp h
      have hhigh : f / 16 = 0 := by omega
      have hlow : f % 16 = f := by omega
      refine @hread _ _ c' (byte_past hc₁) ?_ ?_
      · rw [hbyte (by omega), hhigh]
        exact or_next_byte_past ht.2 h
      · rw [hbyte (by omega), hlow]
        exact or_next_byte_self hf.1
    · rw [if_neg h1, if_neg h2] at h
      obtain ⟨c₁, hc₁, h⟩ := past_cons.mp h
      obtain ⟨c₂, hc₂, h⟩ := past_cons.mp h
      exact hread (byte_past hc₁) (or_next_byte_past ht.2 hc₂) (or_next_byte_past hf.2 h)

end Cursor

variable {c c' : Cursor}

/-! ## Leaves -/

theorem nonzero_fixed (b : Fixed 20) : nonzero b.1 = b.nonzero_account := by
  unfold nonzero
  rw [dif_pos b.2]
  rfl

theorem read_account_past {bytes : Bytes} (hlen : bytes.length ≤ VL_LENGTH_MAX)
    (h : c.Past (write_vl bytes) c') (res : Option AccountID × Cursor) :
    read_account c = .ok res ↔
      (bytes.length = 0 ∨ bytes.length = 20) ∧
        res = (if h : bytes.length = 20 then some ⟨bytes, h⟩ else none, c') := by
  obtain ⟨c₁, hvl, h⟩ := Cursor.vl_past hlen h
  unfold read_account
  rw [bind_of_ok hvl]
  dsimp only
  split
  · next h0 =>
    have hnil : bytes = [] := List.length_eq_zero_iff.mp h0
    have hc : c₁ = c' := by
      have hself : c₁.Past bytes c₁ := by
        rw [hnil]
        exact ⟨rfl, rfl⟩
      exact hself.unique h
    rw [pure_eq_ok, dif_neg (by omega), hc]
    constructor
    · intro heq
      exact ⟨.inl h0, heq.symm⟩
    · intro heq
      exact heq.2.symm
  · next h20 =>
    rw [bind_of_ok (Cursor.take_past h h20)]
    dsimp only
    have haccount : AccountID.ofBytes bytes = ⟨bytes, h20⟩ :=
      AccountID.bytes_inj (AccountID.bytes_ofBytes h20)
    rw [pure_eq_ok, dif_pos h20, haccount]
    constructor
    · intro heq
      exact ⟨.inr h20, heq.symm⟩
    · intro heq
      exact heq.2.symm
  · next h0 h20 =>
    constructor
    · intro hc
      cases hc
    · intro hc
      rcases hc.1 with h | h
      · exact absurd h h0
      · exact absurd h h20

theorem Fixed.cons_first {n : Nat} (b : Fixed (n + 1)) : b.1 = b.first :: b.1.tail := by
  obtain ⟨bytes, hlen⟩ := b
  cases bytes with
  | nil => cases hlen
  | cons x xs => rfl

theorem mpt_issuer_encode (sequence : Fixed 4) (issuer : Fixed 20) :
    mpt_issuer (sequence.1 ++ issuer.1) = issuer.nonzero_account := by
  unfold mpt_issuer
  rw [List.drop_left' sequence.2, List.take_of_length_le (by rw [issuer.2]), nonzero_fixed]

/-- The cursor sees the first byte of an amount before it reads it. -/
theorem Cursor.peek_fixed {n : Nat} {b : Fixed (n + 1)} (h : c.Past b.1 c') :
    c.peek = .ok b.first := by
  rw [b.cons_first] at h
  exact peek_past h

theorem read_amount_past (a : StAmount) (h : c.Past a.encode c') :
    read_amount c = .ok (a.issuer, c') := by
  unfold read_amount
  cases a with
  | native value not_issued not_mpt =>
    rw [bind_of_ok (Cursor.peek_fixed h), if_neg (not_not.mpr not_issued),
      if_neg (not_not.mpr not_mpt), bind_of_ok (Cursor.pass_past h value.2)]
    rfl
  | issued value flag currency issuer =>
    obtain ⟨c₁, h1, h⟩ := Cursor.past_append.mp h
    obtain ⟨c₂, h2, h3⟩ := Cursor.past_append.mp h
    rw [bind_of_ok (Cursor.peek_fixed h1), if_pos flag, bind_of_ok (Cursor.pass_past h1 value.2),
      bind_of_ok (Cursor.pass_past h2 currency.2), bind_of_ok (Cursor.take_past h3 issuer.2)]
    dsimp only
    rw [nonzero_fixed]
    rfl
  | mpt value not_issued flag last sequence issuer =>
    obtain ⟨c₁, h1, h⟩ := Cursor.past_append.mp h
    obtain ⟨c₂, h2, h3⟩ := Cursor.past_append.mp h
    have hid : (sequence.1 ++ issuer.1).length = 24 := by
      rw [List.length_append, sequence.2, issuer.2]
    rw [bind_of_ok (Cursor.peek_fixed h1), if_neg (not_not.mpr not_issued), if_pos flag,
      bind_of_ok (Cursor.pass_past h1 value.2),
      bind_of_ok (@Cursor.pass_past _ _ _ 1 h2 rfl),
      bind_of_ok (Cursor.take_past h3 hid)]
    dsimp only
    rw [mpt_issuer_encode]
    rfl

theorem all_zero_iff {b : Bytes} (hlen : b.length = 20) :
    (b.all fun x => x = 0) = true ↔ b = List.replicate 20 0 := by
  rw [List.all_eq_true, ← hlen, List.eq_replicate_iff]
  simp

theorem skip_issue_past (i : StIssue) (h : c.Past i.encode c') : skip_issue c = .ok c' := by
  unfold skip_issue
  cases i with
  | native =>
    rw [bind_of_ok (@Cursor.take_past _ _ _ 20 h rfl)]
    rfl
  | issued currency issuer not_native not_mpt =>
    obtain ⟨c₁, h1, h2⟩ := Cursor.past_append.mp h
    rw [bind_of_ok (Cursor.take_past h1 currency.2)]
    dsimp only
    rw [if_neg fun hz => not_native ((all_zero_iff currency.2).mp hz),
      bind_of_ok (Cursor.take_past h2 issuer.2)]
    dsimp only
    rw [if_neg not_mpt]
    rfl
  | mpt issuer not_native sequence =>
    obtain ⟨c₁, h1, h⟩ := Cursor.past_append.mp h
    obtain ⟨c₂, h2, h3⟩ := Cursor.past_append.mp h
    rw [bind_of_ok (Cursor.take_past h1 issuer.2)]
    dsimp only
    rw [if_neg fun hz => not_native ((all_zero_iff issuer.2).mp hz),
      bind_of_ok (@Cursor.take_past _ _ _ 20 h2 rfl)]
    dsimp only
    rw [if_pos rfl]
    exact Cursor.pass_past h3 sequence.2

/-! ## Skipping -/

/-- A type of a fixed width is skipped by its width. -/
theorem skip_value_fixed (skip : Cursor → Nat → Except Error Cursor) (type : FixedType) :
    skip_value skip c type.code = c.pass type.width := by
  cases type <;> rfl

theorem skip_value_unknown (skip : Cursor → Nat → Except Error Cursor) {t : Nat}
    (ht : t ∉ known_types) (c'' : Cursor) : skip_value skip c t ≠ .ok c'' := by
  unfold skip_value
  split
  case h_23 =>
    intro h
    cases h
  all_goals exact absurd (by decide) ht

theorem field_header_length (t f : Nat) : 1 ≤ (field_header t f).length := by
  unfold field_header
  split
  · split
    · exact le_refl 1
    · exact Nat.le_succ 1
  · split
    · exact Nat.le_succ 1
    · exact Nat.le_add_left 1 2

theorem FixedType.code_le (type : FixedType) : 1 ≤ type.code ∧ type.code ≤ 255 := by
  cases type <;> decide

theorem StValue.type_code_le (v : StValue) : 1 ≤ v.type_code ∧ v.type_code ≤ 255 := by
  cases v with
  | fixed type bytes => exact type.code_le
  | other type unknown bytes => exact ⟨type.pos, type.le⟩
  | _ =>
    dsimp only [type_code]
    decide

/-! ## Values by their type -/

theorem unknown_ne {type : Code} (unknown : type.val ∉ known_types) {t : Nat}
    (ht : t ∈ known_types) : type.val ≠ t := by
  intro h
  rw [h] at unknown
  exact unknown ht

theorem FixedType.code_ne_nested (type : FixedType) :
    type.code ≠ TYPE_OBJECT ∧ type.code ≠ TYPE_ARRAY ∧ type.code ≠ TYPE_ACCOUNT := by
  cases type <;> decide

theorem FixedType.code_inj {a b : FixedType} (h : a.code = b.code) : a = b := by
  revert h
  cases a <;> cases b <;> decide

/-- A type of fixed width has no other values. -/
theorem StValue.fixed_of_type_code {v : StValue} {type : FixedType}
    (h : v.type_code = type.code) : ∃ bytes : Fixed type.width, v = .fixed type bytes := by
  cases v with
  | fixed type' bytes =>
    obtain rfl := FixedType.code_inj h
    exact ⟨bytes, rfl⟩
  | other type' unknown bytes =>
    have hknown : type.code ∈ known_types := by cases type <;> decide
    exact absurd h (unknown_ne unknown hknown)
  | _ =>
    dsimp only [type_code] at h
    cases type <;> cases h

theorem StValue.object_of_type_code {v : StValue} (h : v.type_code = TYPE_OBJECT) :
    ∃ inner, v = .object inner := by
  cases v with
  | object inner => exact ⟨inner, rfl⟩
  | fixed type bytes => exact absurd h type.code_ne_nested.1
  | other type unknown bytes => exact absurd h (unknown_ne unknown (by decide))
  | _ => exact absurd h (by dsimp only [type_code]; decide)

theorem StValue.array_of_type_code {v : StValue} (h : v.type_code = TYPE_ARRAY) :
    ∃ nodes, v = .array nodes := by
  cases v with
  | array nodes => exact ⟨nodes, rfl⟩
  | fixed type bytes => exact absurd h type.code_ne_nested.2.1
  | other type unknown bytes => exact absurd h (unknown_ne unknown (by decide))
  | _ => exact absurd h (by dsimp only [type_code]; decide)

theorem StValue.account_of_type_code {v : StValue} (h : v.type_code = TYPE_ACCOUNT) :
    ∃ bytes short, v = .account bytes short := by
  cases v with
  | account bytes short => exact ⟨bytes, short, rfl⟩
  | fixed type bytes => exact absurd h type.code_ne_nested.2.2
  | other type unknown bytes => exact absurd h (unknown_ne unknown (by decide))
  | _ => exact absurd h (by dsimp only [type_code]; decide)

/-! ## Skipping -/

theorem object_end_marker : OBJECT_END_MARKER = field_header TYPE_OBJECT 1 := by decide

theorem array_end_marker : ARRAY_END_MARKER = field_header TYPE_ARRAY 1 := by decide

/-- The end marker ends the loop. -/
theorem skip_fields_end {fuel t : Nat} (ht : 1 ≤ t ∧ t ≤ 255) (h : c.Past (field_header t 1) c') :
    skip_fields (fuel + 1) c t = .ok c' := by
  unfold skip_fields
  rw [bind_of_ok (Cursor.read_field_header_past ht ⟨le_refl 1, by decide⟩ h)]
  dsimp only
  rw [if_pos ⟨rfl, rfl⟩]
  rfl

/-- One round of the loop. -/
theorem skip_fields_cons {fuel t f end_type : Nat} {c₁ c'' : Cursor} (ht : 1 ≤ t ∧ t ≤ 255)
    (hf : 1 ≤ f ∧ f ≤ 255) (hend : ¬ EndMarker t f)
    (hmarker : end_type = TYPE_OBJECT ∨ end_type = TYPE_ARRAY)
    (h : c.Past (field_header t f) c₁) :
    skip_fields (fuel + 1) c end_type = .ok c'' ↔
      ∃ c₂, skip_value (skip_fields fuel) c₁ t = .ok c₂ ∧ skip_fields fuel c₂ end_type = .ok c'' := by
  rw [skip_fields, bind_of_ok (Cursor.read_field_header_past ht hf h)]
  dsimp only
  have hno : ¬ (t = end_type ∧ f = 1) := by
    intro hc
    exact hend ⟨hc.1 ▸ hmarker, hc.2⟩
  rw [if_neg hno, bind_eq_ok]

mutual

/-- A value is skipped exactly when all types in it are handled. -/
theorem skip_value_iff : ∀ (v : StValue) {c c' c'' : Cursor} {fuel : Nat}, v.WellFormed →
    c.Past v.encode c' → v.encode.length ≤ fuel →
      (skip_value (skip_fields fuel) c v.type_code = .ok c'' ↔ v.Handled ∧ c'' = c')
  | .fixed type bytes, c, c', c'', fuel, _, h, _ => by
    show skip_value (skip_fields fuel) c type.code = .ok c'' ↔ True ∧ c'' = c'
    rw [skip_value_fixed, Cursor.pass_past h bytes.2, Except.ok.injEq, true_and, eq_comm]
  | .amount a, c, c', c'', fuel, _, h, _ => by
    show (read_amount c >>= fun r => pure r.2) = .ok c'' ↔ True ∧ c'' = c'
    rw [bind_of_ok (read_amount_past a h), pure_eq_ok, true_and, eq_comm]
  | .vl bytes short, c, c', c'', fuel, _, h, _ => by
    obtain ⟨c₁, hvl, h⟩ := Cursor.vl_past short h
    show (c.read_vl_len >>= fun r => r.2.pass r.1) = .ok c'' ↔ True ∧ c'' = c'
    rw [bind_of_ok hvl, Cursor.pass_past h rfl, Except.ok.injEq, true_and, eq_comm]
  | .vector256 bytes short, c, c', c'', fuel, _, h, _ => by
    obtain ⟨c₁, hvl, h⟩ := Cursor.vl_past short h
    show (c.read_vl_len >>= fun r => r.2.pass r.1) = .ok c'' ↔ True ∧ c'' = c'
    rw [bind_of_ok hvl, Cursor.pass_past h rfl, Except.ok.injEq, true_and, eq_comm]
  | .account bytes short, c, c', c'', fuel, _, h, _ => by
    obtain ⟨c₁, hvl, h⟩ := Cursor.vl_past short h
    show (c.read_vl_len >>= fun r => r.2.pass r.1) = .ok c'' ↔ True ∧ c'' = c'
    rw [bind_of_ok hvl, Cursor.pass_past h rfl, Except.ok.injEq, true_and, eq_comm]
  | .issue i, c, c', c'', fuel, _, h, _ => by
    show skip_issue c = .ok c'' ↔ True ∧ c'' = c'
    rw [skip_issue_past i h, Except.ok.injEq, true_and, eq_comm]
  | .object fields, c, c', c'', fuel, hwf, h, hfuel => by
    show skip_fields fuel c TYPE_OBJECT = .ok c'' ↔ fields.Handled ∧ c'' = c'
    have hlen : fields.encode.length < fuel := by
      have hsum : (fields.encode ++ OBJECT_END_MARKER).length ≤ fuel := hfuel
      rw [List.length_append] at hsum
      exact hsum
    exact skip_fields_iff fields hwf h hlen
  | .array elements, c, c', c'', fuel, hwf, h, hfuel => by
    show skip_fields fuel c TYPE_ARRAY = .ok c'' ↔ elements.Handled ∧ c'' = c'
    have hlen : elements.encode.length < fuel := by
      have hsum : (elements.encode ++ ARRAY_END_MARKER).length ≤ fuel := hfuel
      rw [List.length_append] at hsum
      exact hsum
    exact skip_elements_iff elements hwf h hlen
  | .other type unknown bytes, c, c', c'', fuel, _, _, _ => by
    show skip_value (skip_fields fuel) c type.val = .ok c'' ↔ False ∧ c'' = c'
    rw [false_and, iff_false]
    exact skip_value_unknown _ unknown c''

theorem skip_fields_iff : ∀ (fields : StFields) {c c' c'' : Cursor} {fuel : Nat},
    fields.WellFormed → c.Past (fields.encode ++ OBJECT_END_MARKER) c' →
      fields.encode.length < fuel →
        (skip_fields fuel c TYPE_OBJECT = .ok c'' ↔ fields.Handled ∧ c'' = c')
  | _, _, _, _, 0, _, _, hfuel => absurd hfuel (Nat.not_lt_zero _)
  | .nil, c, c', c'', fuel + 1, _, h, _ => by
    rw [show StFields.nil.encode = [] from rfl, List.nil_append, object_end_marker] at h
    rw [skip_fields_end ⟨by decide, by decide⟩ h, Except.ok.injEq, eq_comm]
    exact (true_and _).symm ▸ Iff.rfl
  | .cons field value rest, c, c', c'', fuel + 1, hwf, h, hfuel => by
    obtain ⟨hend, -, hvalue, hrest⟩ := hwf
    have hsplit : (StFields.cons field value rest).encode ++ OBJECT_END_MARKER =
        field_header value.type_code field.val ++
          (value.encode ++ (rest.encode ++ OBJECT_END_MARKER)) := by
      rw [StFields.encode, List.append_assoc, List.append_assoc]
    rw [hsplit] at h
    obtain ⟨c₁, h1, h⟩ := Cursor.past_append.mp h
    obtain ⟨c₂, h2, h3⟩ := Cursor.past_append.mp h
    have hlen := field_header_length value.type_code field.val
    rw [StFields.encode, List.length_append, List.length_append] at hfuel
    rw [skip_fields_cons value.type_code_le ⟨field.pos, field.le⟩ hend (.inl rfl) h1]
    show _ ↔ (value.Handled ∧ rest.Handled) ∧ c'' = c'
    constructor
    · intro hrun
      obtain ⟨c₂', hskip, hloop⟩ := hrun
      obtain ⟨hv, rfl⟩ := (skip_value_iff value hvalue h2 (by omega)).mp hskip
      obtain ⟨hr, hc⟩ := (skip_fields_iff rest hrest h3 (by omega)).mp hloop
      exact ⟨⟨hv, hr⟩, hc⟩
    · intro hrun
      obtain ⟨⟨hv, hr⟩, hc⟩ := hrun
      exact ⟨c₂, (skip_value_iff value hvalue h2 (by omega)).mpr ⟨hv, rfl⟩,
        (skip_fields_iff rest hrest h3 (by omega)).mpr ⟨hr, hc⟩⟩

theorem skip_elements_iff : ∀ (elements : StElements) {c c' c'' : Cursor} {fuel : Nat},
    elements.WellFormed → c.Past (elements.encode ++ ARRAY_END_MARKER) c' →
      elements.encode.length < fuel →
        (skip_fields fuel c TYPE_ARRAY = .ok c'' ↔ elements.Handled ∧ c'' = c')
  | _, _, _, _, 0, _, _, hfuel => absurd hfuel (Nat.not_lt_zero _)
  | .nil, c, c', c'', fuel + 1, _, h, _ => by
    rw [show StElements.nil.encode = [] from rfl, List.nil_append, array_end_marker] at h
    rw [skip_fields_end ⟨by decide, by decide⟩ h, Except.ok.injEq, eq_comm]
    exact (true_and _).symm ▸ Iff.rfl
  | .cons field fields rest, c, c', c'', fuel + 1, hwf, h, hfuel => by
    obtain ⟨hend, hfields, hrest⟩ := hwf
    have hsplit : (StElements.cons field fields rest).encode ++ ARRAY_END_MARKER =
        field_header TYPE_OBJECT field.val ++
          ((fields.encode ++ OBJECT_END_MARKER) ++ (rest.encode ++ ARRAY_END_MARKER)) := by
      rw [StElements.encode, List.append_assoc, List.append_assoc]
    rw [hsplit] at h
    obtain ⟨c₁, h1, h⟩ := Cursor.past_append.mp h
    obtain ⟨c₂, h2, h3⟩ := Cursor.past_append.mp h
    have hlen := field_header_length TYPE_OBJECT field.val
    rw [StElements.encode, List.length_append, List.length_append, List.length_append] at hfuel
    rw [skip_fields_cons ⟨by decide, by decide⟩ ⟨field.pos, field.le⟩ hend (.inr rfl) h1]
    show _ ↔ (fields.Handled ∧ rest.Handled) ∧ c'' = c'
    constructor
    · intro hrun
      obtain ⟨c₂', hskip, hloop⟩ := hrun
      obtain ⟨hv, rfl⟩ := (skip_fields_iff fields hfields h2 (by omega)).mp hskip
      obtain ⟨hr, hc⟩ := (skip_elements_iff rest hrest h3 (by omega)).mp hloop
      exact ⟨⟨hv, hr⟩, hc⟩
    · intro hrun
      obtain ⟨⟨hv, hr⟩, hc⟩ := hrun
      exact ⟨c₂, (skip_fields_iff fields hfields h2 (by omega)).mpr ⟨hv, rfl⟩,
        (skip_elements_iff rest hrest h3 (by omega)).mpr ⟨hr, hc⟩⟩

end

/-! ## The first level -/

/-- An account field is empty or has 20 bytes. -/
def StValue.Readable : StValue → Prop
  | .account bytes _ => bytes.length = 0 ∨ bytes.length = 20
  | _ => True

/-- A field that the rule does not read is skipped. -/
theorem collect_field_skips {fuel t f : Nat} {out : Finset AccountID}
    {res : Finset AccountID × Cursor} (haccount : t ≠ TYPE_ACCOUNT)
    (hamount : t = TYPE_AMOUNT →
      ¬ (f = F_TAKER_PAYS ∨ f = F_TAKER_GETS ∨ f = F_LOW_LIMIT ∨ f = F_HIGH_LIMIT))
    (hid : t = TYPE_UINT192 → f ≠ F_MPT_ISSUANCE_ID) :
    collect_field fuel c t f out = .ok res ↔
      ∃ c', skip_value (skip_fields fuel) c t = .ok c' ∧ res = (out, c') := by
  unfold collect_field
  rw [if_neg haccount, if_neg fun hc => hamount hc.1 hc.2, if_neg fun hc => hid hc.1 hc.2,
    bind_eq_ok]
  constructor
  · intro hrun
    obtain ⟨c', hskip, hres⟩ := hrun
    exact ⟨c', hskip, (pure_eq_ok.mp hres).symm⟩
  · intro hrun
    obtain ⟨c', hskip, hres⟩ := hrun
    exact ⟨c', hskip, pure_eq_ok.mpr hres.symm⟩

theorem mpt_issuer_fixed (id : Fixed 24) : mpt_issuer id.1 = id.issuance_issuer := by
  have hlen : (id.1.drop 4).length = 20 := by rw [List.length_drop, id.2]
  unfold mpt_issuer Fixed.issuance_issuer
  rw [List.take_of_length_le (by rw [hlen]), ← nonzero_fixed]

theorem collect_field_iff (v : StValue) {fuel f : Nat} {out : Finset AccountID}
    {res : Finset AccountID × Cursor} (hwf : v.WellFormed) (h : c.Past v.encode c')
    (hfuel : v.encode.length ≤ fuel) :
    collect_field fuel c v.type_code f out = .ok res ↔
      v.Handled ∧ v.Readable ∧ res = (insert_some (v.account_at f) out, c') := by
  -- A field that is skipped stands for no account.
  have hskipped : v.Readable → v.account_at f = none → v.type_code ≠ TYPE_ACCOUNT →
      (v.type_code = TYPE_AMOUNT →
        ¬ (f = F_TAKER_PAYS ∨ f = F_TAKER_GETS ∨ f = F_LOW_LIMIT ∨ f = F_HIGH_LIMIT)) →
      (v.type_code = TYPE_UINT192 → f ≠ F_MPT_ISSUANCE_ID) →
      (collect_field fuel c v.type_code f out = .ok res ↔
        v.Handled ∧ v.Readable ∧ res = (insert_some (v.account_at f) out, c')) := by
    intro hread hnone h1 h2 h3
    rw [collect_field_skips h1 h2 h3, hnone]
    constructor
    · intro hrun
      obtain ⟨c₁, hskip, hres⟩ := hrun
      obtain ⟨hv, rfl⟩ := (skip_value_iff v hwf h hfuel).mp hskip
      exact ⟨hv, hread, hres⟩
    · intro hrun
      obtain ⟨hv, -, hres⟩ := hrun
      exact ⟨c', (skip_value_iff v hwf h hfuel).mpr ⟨hv, rfl⟩, hres⟩
  have hplain : v.Readable → v.account_at f = none →
      v.type_code ∉ [TYPE_ACCOUNT, TYPE_AMOUNT, TYPE_UINT192] →
      (collect_field fuel c v.type_code f out = .ok res ↔
        v.Handled ∧ v.Readable ∧ res = (insert_some (v.account_at f) out, c')) := by
    intro hread hnone htype
    simp only [List.mem_cons, List.not_mem_nil, or_false, not_or] at htype
    exact hskipped hread hnone htype.1 (fun hc => absurd hc htype.2.1)
      fun hc => absurd hc htype.2.2
  cases v with
  | account bytes short =>
    show collect_field fuel c TYPE_ACCOUNT f out = .ok res ↔ True ∧
      (bytes.length = 0 ∨ bytes.length = 20) ∧ _
    unfold collect_field
    rw [if_pos rfl, bind_eq_ok, true_and]
    constructor
    · intro hrun
      obtain ⟨r, hr, hres⟩ := hrun
      obtain ⟨hlen, rfl⟩ := (read_account_past short h r).mp hr
      rw [pure_eq_ok] at hres
      exact ⟨hlen, hres.symm⟩
    · intro hrun
      obtain ⟨hlen, hres⟩ := hrun
      exact ⟨_, (read_account_past short h _).mpr ⟨hlen, rfl⟩, pure_eq_ok.mpr hres.symm⟩
  | amount a =>
    have hcode : (StValue.amount a).type_code = TYPE_AMOUNT := rfl
    by_cases hf : f = F_TAKER_PAYS ∨ f = F_TAKER_GETS ∨ f = F_LOW_LIMIT ∨ f = F_HIGH_LIMIT
    · have hat : (StValue.amount a).account_at f = a.issuer := if_pos hf
      have hno : ¬ TYPE_AMOUNT = TYPE_ACCOUNT := by decide
      show collect_field fuel c TYPE_AMOUNT f out = .ok res ↔ True ∧ True ∧ _
      unfold collect_field
      rw [if_neg hno, if_pos ⟨rfl, hf⟩, bind_of_ok (read_amount_past a h), hat, true_and,
        true_and, pure_eq_ok, eq_comm]
    · have hat : (StValue.amount a).account_at f = none := if_neg hf
      refine hskipped trivial hat ?_ (fun _ => hf) ?_
      · rw [hcode]
        decide
      · rw [hcode]
        intro hc
        exact absurd hc (by decide)
  | fixed type bytes =>
    by_cases htype : type = .uint192
    · subst htype
      have hcode : (StValue.fixed .uint192 bytes).type_code = TYPE_UINT192 := rfl
      by_cases hid : f = F_MPT_ISSUANCE_ID
      · have hat : (StValue.fixed .uint192 bytes).account_at f = Fixed.issuance_issuer bytes :=
          if_pos hid
        have hno : ¬ TYPE_UINT192 = TYPE_ACCOUNT := by decide
        have hno' : ¬ TYPE_UINT192 = TYPE_AMOUNT := by decide
        show collect_field fuel c TYPE_UINT192 f out = .ok res ↔ True ∧ True ∧ _
        unfold collect_field
        rw [if_neg hno, if_neg fun hc => hno' hc.1, if_pos ⟨rfl, hid⟩,
          bind_of_ok (@Cursor.take_past _ _ _ 24 h bytes.2), hat, true_and, true_and]
        have hissuer : mpt_issuer (StValue.fixed .uint192 bytes).encode =
            Fixed.issuance_issuer bytes := mpt_issuer_fixed bytes
        dsimp only
        rw [pure_eq_ok, eq_comm, hissuer]
      · have hat : (StValue.fixed .uint192 bytes).account_at f = none := if_neg hid
        refine hskipped trivial hat ?_ ?_ fun _ => hid
        · rw [hcode]
          decide
        · rw [hcode]
          intro hc
          exact absurd hc (by decide)
    · have hcode : type.code ∉ [TYPE_ACCOUNT, TYPE_AMOUNT, TYPE_UINT192] := by
        cases type with
        | uint192 => exact absurd rfl htype
        | _ => decide
      have hat : (StValue.fixed type bytes).account_at f = none := by
        cases type with
        | uint192 => exact absurd rfl htype
        | _ => rfl
      exact hplain trivial hat hcode
  | other type unknown bytes =>
    refine hplain trivial rfl fun hc => unknown ?_
    have hknown : [TYPE_ACCOUNT, TYPE_AMOUNT, TYPE_UINT192] ⊆ known_types := by decide
    exact hknown hc
  | _ =>
    refine hplain trivial rfl ?_
    dsimp only [StValue.type_code]
    decide

/-- The accounts of the first level, into `out`. -/
def StFields.add_accounts (fields : StFields) (out : Finset AccountID) : Finset AccountID :=
  fields.to_list.foldl (fun out p => insert_some (p.2.account_at p.1) out) out

def StFields.Readable (fields : StFields) : Prop := ∀ p ∈ fields.to_list, p.2.Readable

theorem StFields.encode_cons {field : Code} {value : StValue} {rest : StFields} {more : Bytes} :
    (StFields.cons field value rest).encode ++ more =
      field_header value.type_code field.val ++ (value.encode ++ (rest.encode ++ more)) := by
  rw [StFields.encode, List.append_assoc, List.append_assoc]

/-- The rounds left after a header are enough for the value and for the
    fields behind it. -/
theorem StFields.fuel_cons {fuel : Nat} {field : Code} {value : StValue} {rest : StFields}
    (h : (StFields.cons field value rest).encode.length < fuel + 1) :
    value.encode.length < fuel ∧ rest.encode.length < fuel := by
  have hlen := field_header_length value.type_code field.val
  rw [StFields.encode, List.length_append, List.length_append] at h
  omega

theorem read_object_end (h : c.Past (StFields.nil.encode ++ OBJECT_END_MARKER) c') :
    c.read_field_header = .ok ((TYPE_OBJECT, 1), c') := by
  rw [show StFields.nil.encode = [] from rfl, List.nil_append, object_end_marker] at h
  exact Cursor.read_field_header_past ⟨by decide, by decide⟩ ⟨le_refl 1, by decide⟩ h

theorem read_field_of_past {field : Code} {value : StValue} {more : Bytes}
    (h : c.Past (field_header value.type_code field.val ++ more) c') :
    ∃ c₁, c.read_field_header = .ok ((value.type_code, field.val), c₁) ∧ c₁.Past more c' := by
  obtain ⟨c₁, h1, h⟩ := Cursor.past_append.mp h
  exact ⟨c₁, Cursor.read_field_header_past value.type_code_le ⟨field.pos, field.le⟩ h1, h⟩

theorem collect_inner_iff : ∀ (fields : StFields) {c c' : Cursor} {fuel : Nat}
    {out : Finset AccountID} {res : Finset AccountID × Cursor}, fields.WellFormed →
    c.Past (fields.encode ++ OBJECT_END_MARKER) c' → fields.encode.length < fuel →
      (collect_inner fuel c out = .ok res ↔
        fields.Handled ∧ fields.Readable ∧ res = (fields.add_accounts out, c'))
  | _, _, _, 0, _, _, _, _, hfuel => absurd hfuel (Nat.not_lt_zero _)
  | .nil, c, c', fuel + 1, out, res, _, h, _ => by
    have hread : StFields.nil.Readable := fun p hp => by cases hp
    rw [collect_inner, bind_of_ok (read_object_end h)]
    dsimp only
    rw [if_pos ⟨rfl, rfl⟩, pure_eq_ok]
    constructor
    · intro hres
      exact ⟨trivial, hread, hres.symm⟩
    · intro hres
      exact hres.2.2.symm
  | .cons field value rest, c, c', fuel + 1, out, res, hwf, h, hfuel => by
    obtain ⟨hend, -, hvalue, hrest⟩ := hwf
    obtain ⟨hfuel_value, hfuel_rest⟩ := StFields.fuel_cons hfuel
    rw [StFields.encode_cons] at h
    obtain ⟨c₁, hheader, h⟩ := read_field_of_past h
    obtain ⟨c₂, h2, h3⟩ := Cursor.past_append.mp h
    rw [collect_inner, bind_of_ok hheader]
    dsimp only
    rw [if_neg fun hc => hend ⟨.inl hc.1, hc.2⟩, bind_eq_ok]
    have hread : (StFields.cons field value rest).Readable ↔ value.Readable ∧ rest.Readable :=
      List.forall_mem_cons
    rw [hread]
    show _ ↔ (value.Handled ∧ rest.Handled) ∧ _ ∧
      res = (rest.add_accounts (insert_some (value.account_at field.val) out), c')
    constructor
    · intro hrun
      obtain ⟨r, hfield, hloop⟩ := hrun
      obtain ⟨hv, hvr, rfl⟩ := (collect_field_iff value hvalue h2 hfuel_value.le).mp hfield
      obtain ⟨hr, hrr, hres⟩ := (collect_inner_iff rest hrest h3 hfuel_rest).mp hloop
      exact ⟨⟨hv, hr⟩, ⟨hvr, hrr⟩, hres⟩
    · intro hrun
      obtain ⟨⟨hv, hr⟩, ⟨hvr, hrr⟩, hres⟩ := hrun
      exact ⟨_, (collect_field_iff value hvalue h2 hfuel_value.le).mpr ⟨hv, hvr, rfl⟩,
        (collect_inner_iff rest hrest h3 hfuel_rest).mpr ⟨hr, hrr, hres⟩⟩

/-! ## Affected nodes -/

/-- A field of a node that is looked into adds its accounts. -/
def add_wanted (wanted : Nat) (out : Finset AccountID) (p : Nat × StValue) : Finset AccountID :=
  match p.2 with
  | .object inner => if p.1 = wanted then inner.add_accounts out else out
  | _ => out

def StFields.add_node (fields : StFields) (wanted : Nat) (out : Finset AccountID) :
    Finset AccountID :=
  fields.to_list.foldl (add_wanted wanted) out

/-- The object that is looked into can be read. -/
def WantedReadable (wanted : Nat) (p : Nat × StValue) : Prop :=
  ∀ inner, p = (wanted, .object inner) → inner.Readable

def StFields.NodeReadable (fields : StFields) (wanted : Nat) : Prop :=
  ∀ p ∈ fields.to_list, WantedReadable wanted p

/-- A field of a node that is not looked into is skipped. -/
theorem add_wanted_skips {wanted f : Nat} {v : StValue} (h : ¬ (v.type_code = TYPE_OBJECT ∧ f = wanted))
    (out : Finset AccountID) : add_wanted wanted out (f, v) = out ∧ WantedReadable wanted (f, v) := by
  constructor
  · cases v with
    | object inner => exact if_neg fun hf => h ⟨rfl, hf⟩
    | _ => rfl
  · intro inner hp
    obtain ⟨hf, hv⟩ := Prod.mk.inj hp
    subst hv
    exact absurd ⟨rfl, hf⟩ h

theorem collect_node_iff : ∀ (fields : StFields) {c c' : Cursor} {fuel wanted : Nat}
    {out : Finset AccountID} {res : Finset AccountID × Cursor}, fields.WellFormed →
    c.Past (fields.encode ++ OBJECT_END_MARKER) c' → fields.encode.length < fuel →
      (collect_node fuel c wanted out = .ok res ↔
        fields.Handled ∧ fields.NodeReadable wanted ∧ res = (fields.add_node wanted out, c'))
  | _, _, _, 0, _, _, _, _, _, hfuel => absurd hfuel (Nat.not_lt_zero _)
  | .nil, c, c', fuel + 1, wanted, out, res, _, h, _ => by
    have hread : StFields.nil.NodeReadable wanted := fun p hp => by cases hp
    rw [collect_node, bind_of_ok (read_object_end h)]
    dsimp only
    rw [if_pos ⟨rfl, rfl⟩, pure_eq_ok]
    constructor
    · intro hres
      exact ⟨trivial, hread, hres.symm⟩
    · intro hres
      exact hres.2.2.symm
  | .cons field value rest, c, c', fuel + 1, wanted, out, res, hwf, h, hfuel => by
    obtain ⟨hend, -, hvalue, hrest⟩ := hwf
    obtain ⟨hfuel_value, hfuel_rest⟩ := StFields.fuel_cons hfuel
    rw [StFields.encode_cons] at h
    obtain ⟨c₁, hheader, h⟩ := read_field_of_past h
    obtain ⟨c₂, h2, h3⟩ := Cursor.past_append.mp h
    rw [collect_node, bind_of_ok hheader]
    dsimp only
    rw [if_neg fun hc => hend ⟨.inl hc.1, hc.2⟩]
    have hread : (StFields.cons field value rest).NodeReadable wanted ↔
        WantedReadable wanted (field.val, value) ∧ rest.NodeReadable wanted :=
      List.forall_mem_cons
    rw [hread]
    show _ ↔ (value.Handled ∧ rest.Handled) ∧ _ ∧
      res = (rest.add_node wanted (add_wanted wanted out (field.val, value)), c')
    have hloop := fun (out : Finset AccountID) =>
      @collect_node_iff rest c₂ c' fuel wanted out res hrest h3 hfuel_rest
    by_cases hwanted : value.type_code = TYPE_OBJECT ∧ field.val = wanted
    · obtain ⟨inner, rfl⟩ := StValue.object_of_type_code hwanted.1
      have hadd : add_wanted wanted out (field.val, .object inner) = inner.add_accounts out :=
        if_pos hwanted.2
      have hinner : WantedReadable wanted (field.val, .object inner) ↔ inner.Readable := by
        constructor
        · intro hr
          exact hr inner (by rw [hwanted.2])
        · intro hr inner' heq
          obtain ⟨-, hobj⟩ := Prod.mk.inj heq
          cases hobj
          exact hr
      have hlen : inner.encode.length < fuel := by
        have hsum : (inner.encode ++ OBJECT_END_MARKER).length < fuel := hfuel_value
        rw [List.length_append] at hsum
        exact lt_of_le_of_lt (Nat.le_add_right _ _) hsum
      have hfirst := fun (r : Finset AccountID × Cursor) =>
        @collect_inner_iff inner c₁ c₂ fuel out r hvalue h2 hlen
      rw [if_pos hwanted, bind_eq_ok, hadd, hinner]
      constructor
      · intro hrun
        obtain ⟨r, hr, hrun⟩ := hrun
        obtain ⟨hv, hvr, rfl⟩ := (hfirst r).mp hr
        obtain ⟨hr, hrr, hres⟩ := (hloop _).mp hrun
        exact ⟨⟨hv, hr⟩, ⟨hvr, hrr⟩, hres⟩
      · intro hrun
        obtain ⟨⟨hv, hr⟩, ⟨hvr, hrr⟩, hres⟩ := hrun
        exact ⟨_, (hfirst _).mpr ⟨hv, hvr, rfl⟩, (hloop _).mpr ⟨hr, hrr, hres⟩⟩
    · obtain ⟨hadd, hskip_read⟩ := add_wanted_skips hwanted out
      rw [if_neg hwanted, bind_eq_ok, hadd]
      constructor
      · intro hrun
        obtain ⟨c₂', hskip, hrun⟩ := hrun
        obtain ⟨hv, rfl⟩ := (skip_value_iff value hvalue h2 hfuel_value.le).mp hskip
        obtain ⟨hr, hrr, hres⟩ := (hloop out).mp hrun
        exact ⟨⟨hv, hr⟩, ⟨hskip_read, hrr⟩, hres⟩
      · intro hrun
        obtain ⟨⟨hv, hr⟩, ⟨-, hrr⟩, hres⟩ := hrun
        exact ⟨c₂, (skip_value_iff value hvalue h2 hfuel_value.le).mpr ⟨hv, rfl⟩,
          (hloop out).mpr ⟨hr, hrr, hres⟩⟩

/-- The accounts of all nodes, into `out`. -/
def StElements.add_nodes (nodes : StElements) (out : Finset AccountID) : Finset AccountID :=
  nodes.to_list.foldl (fun out e => e.2.add_node (wanted_fields e.1) out) out

def StElements.Readable (nodes : StElements) : Prop :=
  ∀ e ∈ nodes.to_list, e.2.NodeReadable (wanted_fields e.1)

theorem collect_affected_nodes_iff : ∀ (nodes : StElements) {c c' : Cursor} {fuel : Nat}
    {out : Finset AccountID} {res : Finset AccountID × Cursor}, nodes.WellFormed →
    c.Past (nodes.encode ++ ARRAY_END_MARKER) c' → nodes.encode.length < fuel →
      (collect_affected_nodes fuel c out = .ok res ↔
        nodes.Handled ∧ nodes.Readable ∧ res = (nodes.add_nodes out, c'))
  | _, _, _, 0, _, _, _, _, hfuel => absurd hfuel (Nat.not_lt_zero _)
  | .nil, c, c', fuel + 1, out, res, _, h, _ => by
    have hread : StElements.nil.Readable := fun p hp => by cases hp
    rw [show StElements.nil.encode = [] from rfl, List.nil_append, array_end_marker] at h
    rw [collect_affected_nodes, bind_of_ok (Cursor.read_field_header_past ⟨by decide, by decide⟩
      ⟨le_refl 1, by decide⟩ h)]
    dsimp only
    rw [if_pos ⟨rfl, rfl⟩, pure_eq_ok]
    constructor
    · intro hres
      exact ⟨trivial, hread, hres.symm⟩
    · intro hres
      exact hres.2.2.symm
  | .cons field fields rest, c, c', fuel + 1, out, res, hwf, h, hfuel => by
    obtain ⟨hend, hfields, hrest⟩ := hwf
    have hsplit : (StElements.cons field fields rest).encode ++ ARRAY_END_MARKER =
        field_header TYPE_OBJECT field.val ++
          ((fields.encode ++ OBJECT_END_MARKER) ++ (rest.encode ++ ARRAY_END_MARKER)) := by
      rw [StElements.encode, List.append_assoc, List.append_assoc]
    rw [hsplit] at h
    obtain ⟨c₁, h1, h⟩ := Cursor.past_append.mp h
    obtain ⟨c₂, h2, h3⟩ := Cursor.past_append.mp h
    have hlen := field_header_length TYPE_OBJECT field.val
    rw [StElements.encode, List.length_append, List.length_append, List.length_append] at hfuel
    rw [collect_affected_nodes, bind_of_ok (Cursor.read_field_header_past ⟨by decide, by decide⟩
      ⟨field.pos, field.le⟩ h1)]
    have hno : ¬ (TYPE_OBJECT = TYPE_ARRAY ∧ field.val = 1) := fun hc => absurd hc.1 (by decide)
    dsimp only
    rw [if_neg hno, bail_if_bind_ok, bind_eq_ok]
    have hread : (StElements.cons field fields rest).Readable ↔
        fields.NodeReadable (wanted_fields field.val) ∧ rest.Readable := List.forall_mem_cons
    rw [hread]
    show _ ↔ (fields.Handled ∧ rest.Handled) ∧ _ ∧
      res = (rest.add_nodes (fields.add_node (wanted_fields field.val) out), c')
    have hnode := fun (r : Finset AccountID × Cursor) =>
      @collect_node_iff fields c₁ c₂ fuel (wanted_fields field.val) out r hfields h2 (by omega)
    have hloop := fun (out : Finset AccountID) =>
      @collect_affected_nodes_iff rest c₂ c' fuel out res hrest h3 (by omega)
    constructor
    · intro hrun
      obtain ⟨-, r, hr, hrun⟩ := hrun
      obtain ⟨hv, hvr, rfl⟩ := (hnode r).mp hr
      obtain ⟨hr, hrr, hres⟩ := (hloop _).mp hrun
      exact ⟨⟨hv, hr⟩, ⟨hvr, hrr⟩, hres⟩
    · intro hrun
      obtain ⟨⟨hv, hr⟩, ⟨hvr, hrr⟩, hres⟩ := hrun
      exact ⟨not_not.mpr rfl, _, (hnode _).mpr ⟨hv, hvr, rfl⟩, (hloop _).mpr ⟨hr, hrr, hres⟩⟩

/-! ## The top level -/

/-- What a top-level field does to the scan. -/
def scan_field (s : MetaScan) (p : Nat × StValue) : MetaScan :=
  match p.2 with
  | .array nodes =>
    if p.1 = F_AFFECTED_NODES then
      { s with accounts := nodes.add_nodes s.accounts, saw_affected_nodes := true }
    else s
  | .fixed .uint32 bytes =>
    if p.1 = F_TRANSACTION_INDEX then
      { s with transaction_index := some (UInt32.ofNat (ofBE bytes.1)) }
    else s
  | _ => s

def NodesReadable (p : Nat × StValue) : Prop :=
  ∀ nodes, p = (F_AFFECTED_NODES, .array nodes) → nodes.Readable

/-- Any other top-level field changes nothing. -/
theorem scan_field_skips {s : MetaScan} {f : Nat} {v : StValue}
    (hnodes : ¬ (v.type_code = TYPE_ARRAY ∧ f = F_AFFECTED_NODES))
    (hindex : ¬ (v.type_code = TYPE_UINT32 ∧ f = F_TRANSACTION_INDEX)) :
    scan_field s (f, v) = s ∧ NodesReadable (f, v) := by
  constructor
  · cases v with
    | array nodes => exact if_neg fun hf => hnodes ⟨rfl, hf⟩
    | fixed type bytes =>
      cases type with
      | uint32 => exact if_neg fun hf => hindex ⟨rfl, hf⟩
      | _ => rfl
    | _ => rfl
  · intro nodes hp
    obtain ⟨hf, hv⟩ := Prod.mk.inj hp
    subst hv
    exact absurd ⟨rfl, hf⟩ hnodes

/-- What a top-level field does, by what it is. -/
theorem scan_field_cases (s : MetaScan) (f : Nat) (v : StValue) :
    (∃ nodes, f = F_AFFECTED_NODES ∧ v = .array nodes ∧ scan_field s (f, v) =
        { s with accounts := nodes.add_nodes s.accounts, saw_affected_nodes := true }) ∨
      (∃ bytes : Fixed 4, f = F_TRANSACTION_INDEX ∧ v = .fixed .uint32 bytes ∧
        scan_field s (f, v) =
          { s with transaction_index := some (UInt32.ofNat (ofBE bytes.1)) }) ∨
      (¬ (v.type_code = TYPE_ARRAY ∧ f = F_AFFECTED_NODES) ∧
        ¬ (v.type_code = TYPE_UINT32 ∧ f = F_TRANSACTION_INDEX) ∧ scan_field s (f, v) = s) := by
  by_cases hnodes : v.type_code = TYPE_ARRAY ∧ f = F_AFFECTED_NODES
  · obtain ⟨nodes, rfl⟩ := StValue.array_of_type_code hnodes.1
    exact .inl ⟨nodes, hnodes.2, rfl, if_pos hnodes.2⟩
  by_cases hindex : v.type_code = TYPE_UINT32 ∧ f = F_TRANSACTION_INDEX
  · obtain ⟨bytes, rfl⟩ := @StValue.fixed_of_type_code _ .uint32 hindex.1
    exact .inr (.inl ⟨bytes, hindex.2, rfl, if_pos hindex.2⟩)
  · exact .inr (.inr ⟨hnodes, hindex, (scan_field_skips hnodes hindex).1⟩)

theorem scan_meta_iff : ∀ (fields : StFields) {c c' : Cursor} {fuel : Nat} {s s' : MetaScan},
    fields.WellFormed → c.Past fields.encode c' → c'.rest = [] → fields.encode.length < fuel →
      (scan_meta fuel c s = .ok s' ↔ fields.Handled ∧ (∀ p ∈ fields.to_list, NodesReadable p) ∧
        s' = fields.to_list.foldl scan_field s)
  | _, _, _, 0, _, _, _, _, _, hfuel => absurd hfuel (Nat.not_lt_zero _)
  | .nil, c, c', fuel + 1, s, s', _, h, hend, _ => by
    have heof : c.eof = true := by
      have hlen := congrArg List.length h.2
      rw [hend, show StFields.nil.encode = [] from rfl, Cursor.rest_length] at hlen
      have hge : c.i ≥ c.b.length := Nat.le_of_sub_eq_zero hlen
      simpa [Cursor.eof] using hge
    rw [scan_meta, if_pos heof, pure_eq_ok]
    constructor
    · intro hres
      exact ⟨trivial, fun p hp => (by cases hp), hres.symm⟩
    · intro hres
      exact hres.2.2.symm
  | .cons field value rest, c, c', fuel + 1, s, s', hwf, h, hend, hfuel => by
    obtain ⟨hmarker, -, hvalue, hrest⟩ := hwf
    obtain ⟨hfuel_value, hfuel_rest⟩ := StFields.fuel_cons hfuel
    have hne : (StFields.cons field value rest).encode ≠ [] := by
      intro hnil
      have hlen := congrArg List.length hnil
      have hpos := field_header_length value.type_code field.val
      rw [StFields.encode, List.length_append, List.length_nil] at hlen
      omega
    have heof : ¬ c.eof = true := by
      rw [Cursor.eof_past h hne]
      decide
    rw [StFields.encode] at h
    obtain ⟨c₁, hheader, h⟩ := read_field_of_past h
    obtain ⟨c₂, h2, h3⟩ := Cursor.past_append.mp h
    rw [scan_meta, if_neg heof, bind_of_ok hheader]
    dsimp only
    rw [if_neg fun hc => hmarker ⟨.inl hc.1, hc.2⟩]
    show _ ↔ (value.Handled ∧ rest.Handled) ∧
      (∀ p ∈ (field.val, value) :: rest.to_list, NodesReadable p) ∧
      s' = rest.to_list.foldl scan_field (scan_field s (field.val, value))
    rw [List.forall_mem_cons]
    have hloop := fun (s : MetaScan) =>
      @scan_meta_iff rest c₂ c' fuel s s' hrest h3 hend hfuel_rest
    by_cases hnodes : value.type_code = TYPE_ARRAY ∧ field.val = F_AFFECTED_NODES
    · obtain ⟨nodes, rfl⟩ := StValue.array_of_type_code hnodes.1
      have hstep : scan_field s (field.val, .array nodes) =
          { s with accounts := nodes.add_nodes s.accounts, saw_affected_nodes := true } :=
        if_pos hnodes.2
      have hread : NodesReadable (field.val, .array nodes) ↔ nodes.Readable := by
        constructor
        · intro hr
          exact hr nodes (by rw [hnodes.2])
        · intro hr nodes' heq
          obtain ⟨-, harr⟩ := Prod.mk.inj heq
          cases harr
          exact hr
      have hlen : nodes.encode.length < fuel := by
        have hsum : (nodes.encode ++ ARRAY_END_MARKER).length < fuel := hfuel_value
        rw [List.length_append] at hsum
        exact lt_of_le_of_lt (Nat.le_add_right _ _) hsum
      have hfirst := fun (r : Finset AccountID × Cursor) =>
        @collect_affected_nodes_iff nodes c₁ c₂ fuel s.accounts r hvalue h2 hlen
      rw [if_pos hnodes, bind_eq_ok, hstep, hread]
      constructor
      · intro hrun
        obtain ⟨r, hr, hrun⟩ := hrun
        obtain ⟨hv, hvr, rfl⟩ := (hfirst r).mp hr
        obtain ⟨hr, hrr, hres⟩ := (hloop _).mp hrun
        exact ⟨⟨hv, hr⟩, ⟨hvr, hrr⟩, hres⟩
      · intro hrun
        obtain ⟨⟨hv, hr⟩, ⟨hvr, hrr⟩, hres⟩ := hrun
        exact ⟨_, (hfirst _).mpr ⟨hv, hvr, rfl⟩, (hloop _).mpr ⟨hr, hrr, hres⟩⟩
    by_cases hindex : value.type_code = TYPE_UINT32 ∧ field.val = F_TRANSACTION_INDEX
    · obtain ⟨bytes, rfl⟩ := @StValue.fixed_of_type_code _ .uint32 hindex.1
      have hstep : scan_field s (field.val, .fixed .uint32 bytes) =
          { s with transaction_index := some (UInt32.ofNat (ofBE bytes.1)) } := if_pos hindex.2
      have hread : NodesReadable (field.val, .fixed .uint32 bytes) := by
        intro nodes heq
        cases (Prod.mk.inj heq).2
      rw [if_neg hnodes, if_pos hindex, bind_of_ok (@Cursor.take_past _ _ _ 4 h2 bytes.2), hstep]
      constructor
      · intro hrun
        obtain ⟨hr, hrr, hres⟩ := (hloop _).mp hrun
        exact ⟨⟨trivial, hr⟩, ⟨hread, hrr⟩, hres⟩
      · intro hrun
        obtain ⟨⟨-, hr⟩, ⟨-, hrr⟩, hres⟩ := hrun
        exact (hloop _).mpr ⟨hr, hrr, hres⟩
    · obtain ⟨hstep, hread⟩ := @scan_field_skips s _ _ hnodes hindex
      rw [if_neg hnodes, if_neg hindex, bind_eq_ok, hstep]
      constructor
      · intro hrun
        obtain ⟨c₂', hskip, hrun⟩ := hrun
        obtain ⟨hv, rfl⟩ := (skip_value_iff value hvalue h2 hfuel_value.le).mp hskip
        obtain ⟨hr, hrr, hres⟩ := (hloop s).mp hrun
        exact ⟨⟨hv, hr⟩, ⟨hread, hrr⟩, hres⟩
      · intro hrun
        obtain ⟨⟨hv, hr⟩, ⟨-, hrr⟩, hres⟩ := hrun
        exact ⟨c₂, (skip_value_iff value hvalue h2 hfuel_value.le).mpr ⟨hv, rfl⟩,
          (hloop s).mpr ⟨hr, hrr, hres⟩⟩

/-! ## What the loops collect -/

theorem mem_insert_some {o : Option AccountID} {out : Finset AccountID} {a : AccountID} :
    a ∈ insert_some o out ↔ a ∈ out ∨ o = some a := by
  cases o with
  | none => simp [insert_some]
  | some b =>
    show a ∈ insert b out ↔ a ∈ out ∨ some b = some a
    rw [Finset.mem_insert, Option.some.injEq, or_comm, eq_comm]

theorem mem_add_accounts {fields : StFields} {out : Finset AccountID} {a : AccountID} :
    a ∈ fields.add_accounts out ↔
      a ∈ out ∨ ∃ p ∈ fields.to_list, p.2.account_at p.1 = some a := by
  refine foldl_or_iff (fun out => a ∈ out) (fun out p => ?_) _ _
  exact mem_insert_some

theorem mem_add_node {fields : StFields} {wanted : Nat} {out : Finset AccountID} {a : AccountID} :
    a ∈ fields.add_node wanted out ↔ a ∈ out ∨ ∃ p ∈ fields.to_list,
      ∃ inner, p = (wanted, .object inner) ∧
        ∃ q ∈ inner.to_list, q.2.account_at q.1 = some a := by
  refine foldl_or_iff (fun out => a ∈ out) (fun out p => ?_) _ _
  obtain ⟨f, v⟩ := p
  by_cases hwanted : v.type_code = TYPE_OBJECT ∧ f = wanted
  · obtain ⟨inner, rfl⟩ := StValue.object_of_type_code hwanted.1
    have hadd : add_wanted wanted out (f, .object inner) = inner.add_accounts out :=
      if_pos hwanted.2
    rw [hadd, mem_add_accounts, hwanted.2]
    simp
  · rw [(add_wanted_skips hwanted out).1]
    constructor
    · exact .inl
    · intro h
      rcases h with h | h
      · exact h
      · obtain ⟨inner, heq, -⟩ := h
        obtain ⟨hf, hv⟩ := Prod.mk.inj heq
        subst hv
        exact absurd ⟨rfl, hf⟩ hwanted

theorem mem_add_nodes {nodes : StElements} {out : Finset AccountID} {a : AccountID} :
    a ∈ nodes.add_nodes out ↔ a ∈ out ∨ ∃ e ∈ nodes.to_list, ∃ p ∈ e.2.to_list,
      ∃ inner, p = (wanted_fields e.1, .object inner) ∧
        ∃ q ∈ inner.to_list, q.2.account_at q.1 = some a := by
  refine foldl_or_iff (fun out => a ∈ out) (fun out e => ?_) _ _
  exact mem_add_node

/-- A top-level field adds the accounts of the affected nodes. -/
theorem mem_scan_field {s : MetaScan} {p : Nat × StValue} {a : AccountID} :
    a ∈ (scan_field s p).accounts ↔ a ∈ s.accounts ∨
      ∃ nodes, p = (F_AFFECTED_NODES, .array nodes) ∧ a ∈ nodes.add_nodes ∅ := by
  obtain ⟨f, v⟩ := p
  rcases scan_field_cases s f v with ⟨nodes, rfl, rfl, hstep⟩ | ⟨bytes, rfl, rfl, hstep⟩ |
    ⟨hnodes, -, hstep⟩
  · rw [hstep, mem_add_nodes]
    simp [mem_add_nodes]
  · rw [hstep]
    simp
  · have hno : ¬ ∃ nodes, (f, v) = (F_AFFECTED_NODES, .array nodes) ∧ a ∈ nodes.add_nodes ∅ := by
      rintro ⟨nodes, heq, -⟩
      obtain ⟨rfl, rfl⟩ := Prod.mk.inj heq
      exact hnodes ⟨rfl, rfl⟩
    rw [hstep]
    simp only [hno, or_false]

theorem saw_scan_field {s : MetaScan} {p : Nat × StValue} :
    (scan_field s p).saw_affected_nodes = true ↔ s.saw_affected_nodes = true ∨
      ∃ nodes, p = (F_AFFECTED_NODES, .array nodes) := by
  obtain ⟨f, v⟩ := p
  rcases scan_field_cases s f v with ⟨nodes, rfl, rfl, hstep⟩ | ⟨bytes, rfl, rfl, hstep⟩ |
    ⟨hnodes, -, hstep⟩
  · rw [hstep]
    simp
  · rw [hstep]
    simp
  · have hno : ¬ ∃ nodes, (f, v) = (F_AFFECTED_NODES, .array nodes) := by
      rintro ⟨nodes, heq⟩
      obtain ⟨rfl, rfl⟩ := Prod.mk.inj heq
      exact hnodes ⟨rfl, rfl⟩
    rw [hstep]
    simp only [hno, or_false]

/-- Only the transaction index sets the transaction index. -/
theorem index_scan_field {s : MetaScan} {f : Nat} {v : StValue} :
    (∃ bytes : Fixed 4, (f, v) = (F_TRANSACTION_INDEX, .fixed .uint32 bytes) ∧
        (scan_field s (f, v)).transaction_index = some (UInt32.ofNat (ofBE bytes.1))) ∨
      (¬ (v.type_code = TYPE_UINT32 ∧ f = F_TRANSACTION_INDEX) ∧
        (scan_field s (f, v)).transaction_index = s.transaction_index) := by
  rcases scan_field_cases s f v with ⟨nodes, rfl, rfl, hstep⟩ | ⟨bytes, rfl, rfl, hstep⟩ |
    ⟨-, hindex, hstep⟩
  · rw [hstep]
    have hno : TYPE_ARRAY ≠ TYPE_UINT32 := by decide
    exact .inr ⟨fun h => hno h.1, rfl⟩
  · rw [hstep]
    exact .inl ⟨bytes, rfl, rfl⟩
  · rw [hstep]
    exact .inr ⟨hindex, rfl⟩

/-- Fields without a transaction index leave it as it is. -/
theorem index_unchanged {l : List (Nat × StValue)} {s : MetaScan}
    (h : ∀ p ∈ l, p.1 = F_TRANSACTION_INDEX → p.2.type_code ≠ TYPE_UINT32) :
    (l.foldl scan_field s).transaction_index = s.transaction_index := by
  induction l generalizing s with
  | nil => rfl
  | cons p l ih =>
    obtain ⟨f, v⟩ := p
    obtain ⟨hp, hl⟩ := List.forall_mem_cons.mp h
    rw [List.foldl_cons, ih hl]
    rcases @index_scan_field s f v with ⟨bytes, heq, -⟩ | ⟨-, hsame⟩
    · obtain ⟨hf, hv⟩ := Prod.mk.inj heq
      subst hv
      exact absurd rfl (hp hf)
    · exact hsame

theorem index_scan : ∀ (fields : StFields) {s : MetaScan} {i : UInt32}, fields.WellFormed →
    s.transaction_index = none →
      ((fields.to_list.foldl scan_field s).transaction_index = some i ↔
        fields.HasTransactionIndex i)
  | .nil, s, i, _, hs => by
    show s.transaction_index = some i ↔ _
    rw [hs]
    constructor
    · intro h
      cases h
    · intro h
      obtain ⟨bytes, hmem, -⟩ := h
      cases hmem
  | .cons field value rest, s, i, hwf, hs => by
    obtain ⟨-, honce, -, hrest⟩ := hwf
    show (rest.to_list.foldl scan_field (scan_field s (field.val, value))).transaction_index =
      some i ↔ _
    unfold StFields.HasTransactionIndex
    rw [show (StFields.cons field value rest).to_list = (field.val, value) :: rest.to_list from rfl]
    rcases @index_scan_field s field.val value with ⟨bytes, heq, hset⟩ | ⟨hno, hsame⟩
    · obtain ⟨hf, hv⟩ := Prod.mk.inj heq
      subst hv
      -- No other field is the index.
      rw [hf] at honce
      rw [index_unchanged honce, hset, Option.some.injEq]
      constructor
      · intro hi
        exact ⟨bytes, heq ▸ List.mem_cons_self, hi.symm⟩
      · intro h
        obtain ⟨bytes', hmem, hi⟩ := h
        rcases List.mem_cons.mp hmem with hmem | hmem
        · obtain ⟨-, hsame⟩ := Prod.mk.inj hmem
          cases hsame
          exact hi.symm
        · exact absurd rfl (honce _ hmem rfl)
    · rw [index_scan rest hrest (hsame.trans hs)]
      constructor
      · intro h
        obtain ⟨bytes, hmem, hi⟩ := h
        exact ⟨bytes, List.mem_cons_of_mem _ hmem, hi⟩
      · intro h
        obtain ⟨bytes, hmem, hi⟩ := h
        rcases List.mem_cons.mp hmem with hmem | hmem
        · obtain ⟨hf, hv⟩ := Prod.mk.inj hmem
          subst hv
          exact absurd ⟨rfl, hf.symm⟩ hno
        · exact ⟨bytes, hmem, hi⟩

/-! ## The summary -/

/-- What the decoder needs: types it handles, accounts it can read, and
    `AffectedNodes`. -/
def StFields.Decodable (m : StFields) : Prop :=
  m.Handled ∧ m.AccountsReadable ∧ m.HasAffectedNodes

theorem StValue.readable_iff {v : StValue} :
    v.Readable ↔ ∀ bytes short, v = .account bytes short → bytes.length = 0 ∨ bytes.length = 20 := by
  cases v with
  | account bytes short =>
    constructor
    · intro h bytes' short' heq
      cases heq
      exact h
    · intro h
      exact h bytes short rfl
  | _ =>
    constructor
    · intro _ bytes short heq
      cases heq
    · intro _
      trivial

/-- The accounts that the loops read are those of the rule. -/
theorem accounts_readable_iff {m : StFields} :
    (∀ p ∈ m.to_list, NodesReadable p) ↔ m.AccountsReadable := by
  constructor
  · intro h inner hinner f bytes short hmem
    obtain ⟨nodes, hnodes, node, hnode, hobj⟩ := hinner
    have hread := h _ hnodes nodes rfl node hnode _ hobj inner rfl
    exact hread _ hmem
  · intro h p hp nodes heq node hnode q hq inner hobj r hr
    rw [heq] at hp
    rw [hobj] at hq
    rw [StValue.readable_iff]
    intro bytes short hv
    obtain ⟨f, v⟩ := r
    subst hv
    exact h inner ⟨nodes, hp, node, hnode, hq⟩ f bytes short hr

theorem affects_iff {m : StFields} {a : AccountID} :
    (∃ p ∈ m.to_list, ∃ nodes, p = (F_AFFECTED_NODES, .array nodes) ∧ a ∈ nodes.add_nodes ∅) ↔
      m.Affects a := by
  constructor
  · intro h
    obtain ⟨p, hp, nodes, rfl, ha⟩ := h
    rcases mem_add_nodes.mp ha with ha | ha
    · exact absurd ha (Finset.notMem_empty a)
    · obtain ⟨node, hnode, q, hq, inner, rfl, hr⟩ := ha
      exact ⟨inner, ⟨nodes, hp, node, hnode, hq⟩, hr⟩
  · intro h
    obtain ⟨inner, ⟨nodes, hp, node, hnode, hq⟩, hr⟩ := h
    exact ⟨_, hp, nodes, rfl, mem_add_nodes.mpr (.inr ⟨node, hnode, _, hq, inner, rfl, hr⟩)⟩

/-- The summary of metadata is its affected accounts and its transaction
    index, if the decoder has what it needs, and an error if not. -/
theorem summarize_meta_exact (m : StFields) (hwf : m.WellFormed) :
    (m.Decodable → ∃ s, summarize_meta m.encode = .ok s ∧
      s.affected_accounts.Pairwise (· < ·) ∧ (∀ a, a ∈ s.affected_accounts ↔ m.Affects a) ∧
      ∀ i, s.transaction_index = some i ↔ m.HasTransactionIndex i) ∧
    (¬ m.Decodable → ∃ e, summarize_meta m.encode = .error e ∧ e ≠ .fuel) := by
  let start : MetaScan := { accounts := ∅, transaction_index := none, saw_affected_nodes := false }
  let final : MetaScan := m.to_list.foldl scan_field start
  have hscan : ∀ s, scan_meta (m.encode.length + 1) ⟨m.encode, 0, Nat.zero_le _⟩ start = .ok s ↔
      m.Handled ∧ m.AccountsReadable ∧ s = final := by
    intro s
    have hpast : (⟨m.encode, 0, Nat.zero_le _⟩ : Cursor).Past m.encode
        ⟨m.encode, m.encode.length, le_refl _⟩ := by
      refine ⟨rfl, ?_⟩
      show m.encode.drop 0 = m.encode ++ m.encode.drop m.encode.length
      rw [List.drop_zero, List.drop_length, List.append_nil]
    rw [scan_meta_iff m hwf hpast List.drop_length (Nat.lt_succ_self _), accounts_readable_iff]
  have hsaw : final.saw_affected_nodes = true ↔ m.HasAffectedNodes := by
    have h := foldl_or_iff (fun s : MetaScan => s.saw_affected_nodes = true)
      (fun s p => @saw_scan_field s p) m.to_list start
    rw [h]
    constructor
    · intro h
      rcases h with h | h
      · cases h
      · obtain ⟨p, hp, nodes, rfl⟩ := h
        exact ⟨nodes, hp⟩
    · intro h
      obtain ⟨nodes, hp⟩ := h
      exact .inr ⟨_, hp, nodes, rfl⟩
  have haccounts : ∀ a, a ∈ final.accounts ↔ m.Affects a := by
    intro a
    have h := foldl_or_iff (fun s : MetaScan => a ∈ s.accounts)
      (fun s p => @mem_scan_field s p a) m.to_list start
    rw [h, affects_iff]
    simp [start]
  constructor
  · intro hdec
    obtain ⟨hhandled, hread, hhas⟩ := hdec
    refine ⟨{ affected_accounts := final.accounts.sort,
              transaction_index := final.transaction_index }, ?_, ?_, ?_, ?_⟩
    · unfold summarize_meta
      rw [bind_of_ok ((hscan final).mpr ⟨hhandled, hread, rfl⟩), bail_if_bind_ok, pure_eq_ok]
      exact ⟨by rw [hsaw.mpr hhas]; decide, rfl⟩
    · exact (Finset.sortedLT_sort final.accounts).pairwise
    · intro a
      rw [← haccounts]
      exact Finset.mem_sort _
    · intro i
      exact index_scan m hwf rfl
  · intro hdec
    cases hres : summarize_meta m.encode with
    | error e => exact ⟨e, rfl, summarize_meta_ne_fuel _ e hres⟩
    | ok s =>
      exfalso
      obtain ⟨s', hs', hrest⟩ := bind_eq_ok.mp hres
      obtain ⟨hhandled, hread, rfl⟩ := (hscan s').mp hs'
      rw [bail_if_bind_ok, Bool.not_eq_false] at hrest
      exact hdec ⟨hhandled, hread, hsaw.mp hrest.1⟩

/-! ## Metadata of one created account -/

/-- Transaction index 7, and a created node with an account in its new
    fields. -/
def created_account (account : Fixed 20) : StFields :=
  let new_fields := StFields.cons ⟨1, by decide, by decide⟩
    (.account account.1 (by rw [account.2]; decide)) .nil
  let node := StFields.cons ⟨F_NEW_FIELDS, by decide, by decide⟩ (.object new_fields) .nil
  .cons ⟨F_TRANSACTION_INDEX, by decide, by decide⟩ (.fixed .uint32 ⟨[0, 0, 0, 7], rfl⟩)
    (.cons ⟨F_AFFECTED_NODES, by decide, by decide⟩
      (.array (.cons ⟨F_CREATED_NODE, by decide, by decide⟩ node .nil)) .nil)

theorem created_account_well_formed (account : Fixed 20) : (created_account account).WellFormed := by
  simp [created_account, StFields.WellFormed, StElements.WellFormed, StValue.WellFormed, EndMarker,
    StFields.to_list, StValue.type_code, FixedType.code, F_NEW_FIELDS, F_TRANSACTION_INDEX,
    F_AFFECTED_NODES, F_CREATED_NODE]

theorem created_account_inner {account : Fixed 20} {inner : StFields}
    (h : (created_account account).Inner inner) :
    inner.to_list = [(1, .account account.1 (by rw [account.2]; decide))] := by
  obtain ⟨nodes, hnodes, node, hnode, hobj⟩ := h
  simp only [created_account, StFields.to_list, List.mem_cons, Prod.mk.injEq, List.not_mem_nil,
    or_false, reduceCtorEq, and_false, false_or, StValue.array.injEq, true_and] at hnodes
  rw [hnodes, StElements.to_list, List.mem_cons, StElements.to_list] at hnode
  obtain rfl := hnode.resolve_right List.not_mem_nil
  simp only [StFields.to_list, List.mem_cons, List.not_mem_nil, or_false, Prod.mk.injEq,
    StValue.object.injEq] at hobj
  rw [hobj.2]
  rfl

theorem created_account_decodable (account : Fixed 20) : (created_account account).Decodable := by
  refine ⟨⟨trivial, ⟨⟨⟨trivial, trivial⟩, trivial⟩, trivial⟩, trivial⟩, ?_, ?_⟩
  · intro inner hinner f bytes short hmem
    rw [created_account_inner hinner] at hmem
    obtain ⟨-, hv⟩ := Prod.mk.inj (List.mem_singleton.mp hmem)
    cases hv
    exact .inr account.2
  · exact ⟨_, List.mem_cons_of_mem _ List.mem_cons_self⟩

theorem summarize_meta_exact_created : ∃ s,
    summarize_meta (created_account ⟨List.replicate 20 9, rfl⟩).encode = .ok s ∧
      s.affected_accounts.Pairwise (· < ·) ∧
      (∀ a, a ∈ s.affected_accounts ↔ (created_account ⟨List.replicate 20 9, rfl⟩).Affects a) ∧
      ∀ i, s.transaction_index = some i ↔
        (created_account ⟨List.replicate 20 9, rfl⟩).HasTransactionIndex i :=
  (summarize_meta_exact _ (created_account_well_formed _)).1 (created_account_decodable _)

end LedgerArchive
