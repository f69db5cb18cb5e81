import LedgerArchive.Lib.Checked
import Mathlib.Data.Nat.Digits.Lemmas
import Mathlib.Data.List.TakeWhile

/-! # Numbers as digits, converted in place

    A digit string, most significant digit first, is its leading zeros and
    the digits of its value (`zeros_append_digits`), so it can be taken to
    another base and back (`rebase_rebase`).

    A conversion keeps a number of any length as its digits in one base,
    least significant first, and takes in the digits of another. Each is one
    pass over the digits that multiplies and carries in machine words, and
    what is carried out of the pass is appended (`Conversion.push`). The
    digits are always those of the number so far, without a zero at the end
    (`Conversion.convert_digits`), and no word overflows on the way
    (`Conversion.convert_checked_run`). -/

namespace Lib

/-! ## Digit strings, most significant first -/

/-- The value of a digit string. -/
def digits_value (b : ℕ) (ds : List ℕ) : ℕ :=
  ds.foldl (fun n d => n * b + d) 0

theorem digits_value_eq (b : ℕ) (ds : List ℕ) :
    digits_value b ds = Nat.ofDigits b ds.reverse := by
  unfold digits_value
  rw [Nat.ofDigits_eq_foldr, List.foldr_reverse]
  congr 1
  funext n d
  rw [Nat.cast_id, Nat.add_comm, Nat.mul_comm]

theorem digits_value_digits (b n : ℕ) : digits_value b (Nat.digits b n).reverse = n := by
  rw [digits_value_eq, List.reverse_reverse, Nat.ofDigits_digits]

theorem digits_value_zeros (b k : ℕ) (ds : List ℕ) :
    digits_value b (List.replicate k 0 ++ ds) = digits_value b ds := by
  rw [digits_value_eq, digits_value_eq, List.reverse_append, List.reverse_replicate,
    Nat.ofDigits_append_replicate_zero]

theorem digits_value_zero_cons (b : ℕ) (ds : List ℕ) :
    digits_value b ((0 : UInt32).toNat :: ds) = digits_value b ds :=
  digits_value_zeros b 1 ds

/-- How many zeros a digit string starts with. -/
def leading_zeros (ds : List ℕ) : ℕ := (ds.takeWhile (· = 0)).length

/-- A digit string is its leading zeros and the digits of its value. -/
theorem zeros_append_digits {b : ℕ} (hb : 1 < b) {ds : List ℕ} (hds : ∀ d ∈ ds, d < b) :
    ds = List.replicate (leading_zeros ds) 0 ++ (Nat.digits b (digits_value b ds)).reverse := by
  have hzeros : ds.takeWhile (· = 0) = List.replicate (leading_zeros ds) 0 := by
    apply List.eq_replicate_of_mem
    intro d hd
    simpa using List.mem_takeWhile_imp hd
  have hsplit : List.replicate (leading_zeros ds) 0 ++ ds.dropWhile (· = 0) = ds := by
    rw [← hzeros, List.takeWhile_append_dropWhile]
  have hdigits : Nat.digits b (digits_value b ds) = (ds.dropWhile (· = 0)).reverse := by
    rw [← hsplit, digits_value_zeros, hsplit, digits_value_eq]
    apply Nat.digits_ofDigits b hb
    · intro d hd
      exact hds d (List.dropWhile_sublist _ |>.subset (List.mem_reverse.mp hd))
    · intro hne hlast
      rw [List.getLast_reverse] at hlast
      have hhead := @List.head_dropWhile_not ℕ (fun d => decide (d = 0)) ds
        (by simpa using hne)
      simp [hlast] at hhead
  rw [hdigits, List.reverse_reverse, hsplit]

/-- The digits of a positive number do not start with a zero. -/
theorem leading_zeros_digits (b : ℕ) {n : ℕ} (hn : n ≠ 0) (k : ℕ) :
    leading_zeros (List.replicate k 0 ++ (Nat.digits b n).reverse) = k := by
  have hne : Nat.digits b n ≠ [] := Nat.digits_ne_nil_iff_ne_zero.mpr hn
  have hlast := Nat.getLast_digit_ne_zero b hn
  unfold leading_zeros
  rw [← List.dropLast_append_getLast hne, List.reverse_append, List.takeWhile_append_of_pos]
  · rw [List.length_append, List.length_replicate]
    simp [hlast]
  · intro d hd
    simpa using List.eq_of_mem_replicate hd

/-- How many zeros a string starts with, counted on its letters. -/
theorem leading_zeros_map {α : Type} {f : α → ℕ} {p : α → Prop} [DecidablePred p] {l : List α}
    (h : ∀ a ∈ l, p a ↔ f a = 0) : (l.takeWhile p).length = leading_zeros (l.map f) := by
  induction l with
  | nil => rfl
  | cons a l ih =>
    rw [List.forall_mem_cons] at h
    have hrest := ih h.2
    unfold leading_zeros at hrest ⊢
    by_cases hp : p a
    · rw [List.map_cons, List.takeWhile_cons_of_pos (by simpa using hp),
        List.takeWhile_cons_of_pos (by simpa using h.1.mp hp), List.length_cons, hrest,
        List.length_cons]
    · rw [List.map_cons, List.takeWhile_cons_of_neg (by simpa using hp),
        List.takeWhile_cons_of_neg (by simpa using fun hf => hp (h.1.mpr hf))]
      rfl

/-! ## One string in two bases -/

/-- The string in another base: its leading zeros, and the digits of its
    value there. -/
def rebase (b b' : ℕ) (ds : List ℕ) : List ℕ :=
  List.replicate (leading_zeros ds) 0 ++ (Nat.digits b' (digits_value b ds)).reverse

theorem rebase_value (b b' : ℕ) (ds : List ℕ) :
    digits_value b' (rebase b b' ds) = digits_value b ds := by
  unfold rebase
  rw [digits_value_zeros, digits_value_digits]

/-- There and back. A string of zeros alone is left out: one zero of it may
    stand for its value. -/
theorem rebase_rebase {b : ℕ} (b' : ℕ) {ds : List ℕ} (hb : 1 < b) (hds : ∀ d ∈ ds, d < b)
    (hne : digits_value b ds ≠ 0) : rebase b' b (rebase b b' ds) = ds := by
  have hvalue := rebase_value b b' ds
  have hzeros : leading_zeros (rebase b b' ds) = leading_zeros ds :=
    leading_zeros_digits b' hne (leading_zeros ds)
  calc rebase b' b (rebase b b' ds)
      = List.replicate (leading_zeros (rebase b b' ds)) 0 ++
          (Nat.digits b (digits_value b' (rebase b b' ds))).reverse := rfl
    _ = List.replicate (leading_zeros ds) 0 ++ (Nat.digits b (digits_value b ds)).reverse := by
      rw [hzeros, hvalue]
    _ = ds := (zeros_append_digits hb hds).symm

/-- Only zeros have the value zero. -/
theorem zeros_of_value {b : ℕ} {ds : List ℕ} (hb : 1 < b) (hds : ∀ d ∈ ds, d < b)
    (h : digits_value b ds = 0) : ∀ d ∈ ds, d = 0 := by
  intro d hd
  rw [zeros_append_digits hb hds, h, Nat.digits_zero, List.reverse_nil, List.append_nil] at hd
  exact List.eq_of_mem_replicate hd

/-! ## Conversion in machine words -/

/-- A conversion from base `mul` to base `radix`: how a word is split into a
    digit and a carry. -/
structure Conversion where
  mul : UInt32
  radix : ℕ
  low : UInt32 → UInt8
  high : UInt32 → UInt32
  one_lt_radix : 1 < radix
  low_eq : ∀ v, (low v).toNat = v.toNat % radix
  high_eq : ∀ v, (high v).toNat = v.toNat / radix
  radix_le : radix ≤ 256
  radix_mul_le : radix * mul.toNat ≤ 4294967296

namespace Conversion

variable (c : Conversion)

/-- The pass over the digits. -/
def pass : List UInt8 → UInt32 → List UInt8 × UInt32
  | [], carry => ([], carry)
  | d :: digits, carry =>
    let v := d.toUInt32 * c.mul + carry
    let rest := pass digits (c.high v)
    (c.low v :: rest.1, rest.2)

/-- The loop that appends the carry. -/
def push_carry : ℕ → UInt32 → List UInt8
  | 0, _ => []
  | fuel + 1, carry =>
    if carry = 0 then [] else c.low carry :: push_carry fuel (c.high carry)

def push (digits : List UInt8) (carry : UInt32) : List UInt8 :=
  let rest := c.pass digits carry
  rest.1 ++ c.push_carry rest.2.toNat rest.2

def convert (digits : List UInt8) (values : List UInt32) : List UInt8 :=
  values.foldl c.push digits

@[simp] theorem push_nil (carry : UInt32) : c.push [] carry = c.push_carry carry.toNat carry := rfl

@[simp] theorem push_cons (d : UInt8) (digits : List UInt8) (carry : UInt32) :
    c.push (d :: digits) carry = c.low (d.toUInt32 * c.mul + carry) ::
      c.push digits (c.high (d.toUInt32 * c.mul + carry)) := rfl

@[simp] theorem convert_nil (digits : List UInt8) : c.convert digits [] = digits := rfl

@[simp] theorem convert_cons (digits : List UInt8) (value : UInt32) (values : List UInt32) :
    c.convert digits (value :: values) = c.convert (c.push digits value) values := rfl

/-! ### No word overflows -/

theorem digit_mul_lt {d carry : ℕ} (hd : d < c.radix) (hcarry : carry < c.mul.toNat) :
    d * c.mul.toNat + carry < c.radix * c.mul.toNat :=
  calc d * c.mul.toNat + carry < d * c.mul.toNat + c.mul.toNat := by omega
    _ = (d + 1) * c.mul.toNat := by rw [Nat.succ_mul]
    _ ≤ c.radix * c.mul.toNat := Nat.mul_le_mul_right _ hd

theorem word_toNat {d : UInt8} {carry : UInt32} (hd : d.toNat < c.radix)
    (hcarry : carry < c.mul) :
    (d.toUInt32 * c.mul + carry).toNat = d.toNat * c.mul.toNat + carry.toNat := by
  have hlt := c.digit_mul_lt hd (UInt32.lt_iff_toNat_lt.mp hcarry)
  have hle := c.radix_mul_le
  rw [UInt32.toNat_add, UInt32.toNat_mul, UInt8.toNat_toUInt32]
  omega

/-- What is carried on stays below the other base. -/
theorem high_lt {d : UInt8} {carry : UInt32} (hd : d.toNat < c.radix) (hcarry : carry < c.mul) :
    c.high (d.toUInt32 * c.mul + carry) < c.mul := by
  rw [UInt32.lt_iff_toNat_lt, high_eq, c.word_toNat hd hcarry]
  exact Nat.div_lt_of_lt_mul (c.digit_mul_lt hd (UInt32.lt_iff_toNat_lt.mp hcarry))

theorem low_lt (v : UInt32) : (c.low v).toNat < c.radix := by
  rw [low_eq]
  exact Nat.mod_lt _ (Nat.lt_of_succ_lt c.one_lt_radix)

/-! ### The digits are those of the number -/

theorem word_pos {v : UInt32} (h : v ≠ 0) : 0 < v.toNat := by
  rw [Nat.pos_iff_ne_zero]
  intro hzero
  exact h (UInt32.toNat_inj.mp hzero)

theorem push_carry_digits {fuel : ℕ} {carry : UInt32} (h : carry.toNat ≤ fuel) :
    (c.push_carry fuel carry).map UInt8.toNat = Nat.digits c.radix carry.toNat := by
  induction fuel generalizing carry with
  | zero =>
    rw [Nat.le_zero.mp h, Nat.digits_zero]
    rfl
  | succ fuel ih =>
    unfold push_carry
    by_cases hzero : carry = 0
    · rw [if_pos hzero, hzero]
      simp
    · have hpos := word_pos hzero
      have hless : carry.toNat / c.radix < carry.toNat := Nat.div_lt_self hpos c.one_lt_radix
      have hrest : (c.high carry).toNat ≤ fuel := by
        rw [high_eq]
        omega
      rw [if_neg hzero, List.map_cons, ih hrest, low_eq, high_eq,
        Nat.digits_def' c.one_lt_radix hpos]

/-- One digit more: the number times the other base, and the digit. -/
theorem push_digits {digits : List UInt8} {carry : UInt32} {n : ℕ}
    (h : digits.map UInt8.toNat = Nat.digits c.radix n) (hcarry : carry < c.mul) :
    (c.push digits carry).map UInt8.toNat =
      Nat.digits c.radix (n * c.mul.toNat + carry.toNat) := by
  -- over the digits, least significant first; what is carried is below `mul`
  induction digits generalizing n carry with
  | nil =>
    have hn : n = 0 := Nat.digits_eq_nil_iff_eq_zero.mp h.symm
    rw [push_nil, c.push_carry_digits (Nat.le_refl _), hn, Nat.zero_mul, Nat.zero_add]
  | cons d digits ih =>
    have hne : n ≠ 0 := by
      rintro rfl
      simp at h
    rw [List.map_cons, Nat.digits_def' c.one_lt_radix (Nat.pos_of_ne_zero hne),
      List.cons.injEq] at h
    obtain ⟨hd, hrest⟩ := h
    have hlt : d.toNat < c.radix := by
      rw [hd]
      exact Nat.mod_lt _ (Nat.lt_of_succ_lt c.one_lt_radix)
    have hword := c.word_toNat hlt hcarry
    have hpos : 0 < n * c.mul.toNat + carry.toNat := by
      have hmul : 0 < c.mul.toNat := Nat.lt_of_le_of_lt (Nat.zero_le _)
        (UInt32.lt_iff_toNat_lt.mp hcarry)
      have := Nat.mul_pos (Nat.pos_of_ne_zero hne) hmul
      omega
    -- the first digit and the word it makes split the new number
    have hsplit : n * c.mul.toNat + carry.toNat =
        (d.toUInt32 * c.mul + carry).toNat + c.radix * (n / c.radix * c.mul.toNat) := by
      rw [hword, hd]
      calc n * c.mul.toNat + carry.toNat
          = (n % c.radix + c.radix * (n / c.radix)) * c.mul.toNat + carry.toNat := by
            rw [Nat.mod_add_div]
        _ = _ := by ring
    rw [push_cons, List.map_cons, ih hrest (c.high_lt hlt hcarry), low_eq, high_eq,
      Nat.digits_def' c.one_lt_radix hpos, hsplit, Nat.add_mul_mod_self_left,
      Nat.add_mul_div_left _ _ (Nat.lt_of_succ_lt c.one_lt_radix), Nat.add_comm (_ / _)]

/-- A lone zero gives way to the first digit that is not zero. -/
theorem push_zero_digits (carry : UInt32) : (c.push [0] carry).map UInt8.toNat =
    if carry = 0 then [0] else Nat.digits c.radix carry.toNat := by
  have hword : (0 : UInt8).toUInt32 * c.mul + carry = carry := by
    rw [show (0 : UInt8).toUInt32 = 0 from rfl, UInt32.zero_mul, UInt32.zero_add]
  rw [push_cons, hword, push_nil, List.map_cons, c.push_carry_digits (Nat.le_refl _), low_eq,
    high_eq]
  by_cases hzero : carry = 0
  · rw [if_pos hzero, hzero]
    simp
  · rw [if_neg hzero, Nat.digits_def' c.one_lt_radix (word_pos hzero)]

theorem push_zero_zero : c.push [0] 0 = [0] := by
  have hpush := c.push_zero_digits 0
  rw [if_pos rfl] at hpush
  exact List.map_injective_iff.mpr (fun _ _ => UInt8.toNat_inj.mp) hpush

theorem convert_zeros (k : ℕ) : c.convert [0] (List.replicate k 0) = [0] := by
  induction k with
  | zero => rfl
  | succ k ih => rw [List.replicate_succ, convert_cons, push_zero_zero, ih]

/-- From no digits on, the digits are those of the value. -/
theorem convert_digits {digits : List UInt8} {n : ℕ} {values : List UInt32}
    (h : digits.map UInt8.toNat = Nat.digits c.radix n) (hvalues : ∀ v ∈ values, v < c.mul) :
    (c.convert digits values).map UInt8.toNat =
      Nat.digits c.radix ((values.map UInt32.toNat).foldl (fun n d => n * c.mul.toNat + d) n) := by
  induction values generalizing digits n with
  | nil => exact h
  | cons v values ih =>
    rw [List.forall_mem_cons] at hvalues
    exact ih (c.push_digits h hvalues.1) hvalues.2

/-- From a lone zero on they are too, but for a value of zero. -/
theorem convert_zero_digits {values : List UInt32} (hvalues : ∀ v ∈ values, v < c.mul)
    (hne : digits_value c.mul.toNat (values.map UInt32.toNat) ≠ 0) :
    (c.convert [0] values).map UInt8.toNat =
      Nat.digits c.radix (digits_value c.mul.toNat (values.map UInt32.toNat)) := by
  induction values with
  | nil => exact absurd rfl hne
  | cons v values ih =>
    rw [List.forall_mem_cons] at hvalues
    have hpush := c.push_zero_digits v
    by_cases hzero : v = 0
    · subst hzero
      rw [convert_cons, push_zero_zero]
      rw [List.map_cons, digits_value_zero_cons] at hne ⊢
      exact ih hvalues.2 hne
    · rw [if_neg hzero] at hpush
      rw [convert_cons, c.convert_digits hpush hvalues.2]
      unfold digits_value
      rw [List.map_cons, List.foldl_cons, Nat.zero_mul, Nat.zero_add]

/-! ### The run with overflow checks -/

variable {ε : Type}

def pass_checked : List UInt8 → UInt32 → Checked ε (List UInt8 × UInt32)
  | [], carry => pure ([], carry)
  | d :: digits, carry => do
    let product ← checked_mul32 d.toUInt32 c.mul
    let v ← checked_add product carry
    let rest ← pass_checked digits (c.high v)
    pure (c.low v :: rest.1, rest.2)

def push_checked (digits : List UInt8) (carry : UInt32) : Checked ε (List UInt8) := do
  let rest ← c.pass_checked digits carry
  pure (rest.1 ++ c.push_carry rest.2.toNat rest.2)

def convert_checked (digits : List UInt8) (values : List UInt32) : Checked ε (List UInt8) :=
  values.foldlM c.push_checked digits

theorem pass_checked_run {digits : List UInt8} {carry : UInt32}
    (hdigits : ∀ d ∈ digits, d.toNat < c.radix) (hcarry : carry < c.mul) :
    (c.pass_checked digits carry : Checked ε _).run = some (.ok (c.pass digits carry)) := by
  induction digits generalizing carry with
  | nil => rfl
  | cons d digits ih =>
    rw [List.forall_mem_cons] at hdigits
    obtain ⟨hd, hdigits⟩ := hdigits
    have hle := c.radix_mul_le
    have hlt := c.digit_mul_lt hd (UInt32.lt_iff_toNat_lt.mp hcarry)
    have hmul : d.toUInt32.toNat * c.mul.toNat < 2 ^ 32 := by
      rw [UInt8.toNat_toUInt32]
      omega
    have hadd : (d.toUInt32 * c.mul).toNat + carry.toNat < 2 ^ 32 := by
      rw [UInt32.toNat_mul, UInt8.toNat_toUInt32]
      omega
    unfold pass_checked
    rw [Checked.run_bind_of_ok (Checked.run_mul32 hmul),
      Checked.run_bind_of_ok (Checked.run_add hadd),
      Checked.run_bind_of_ok (ih hdigits (c.high_lt hd hcarry))]
    rfl

theorem push_carry_lt (fuel : ℕ) (carry : UInt32) :
    ∀ d ∈ c.push_carry fuel carry, d.toNat < c.radix := by
  induction fuel generalizing carry with
  | zero => exact List.forall_mem_nil _
  | succ fuel ih =>
    unfold push_carry
    split
    · exact List.forall_mem_nil _
    · exact List.forall_mem_cons.mpr ⟨c.low_lt carry, ih (c.high carry)⟩

theorem push_lt (digits : List UInt8) (carry : UInt32) :
    ∀ d ∈ c.push digits carry, d.toNat < c.radix := by
  induction digits generalizing carry with
  | nil => exact c.push_carry_lt _ carry
  | cons d digits ih =>
    rw [push_cons]
    exact List.forall_mem_cons.mpr ⟨c.low_lt _, ih _⟩

theorem convert_lt {digits : List UInt8} (hdigits : ∀ d ∈ digits, d.toNat < c.radix)
    (values : List UInt32) : ∀ d ∈ c.convert digits values, d.toNat < c.radix := by
  induction values generalizing digits with
  | nil => exact hdigits
  | cons v values ih => exact ih (c.push_lt digits v)

theorem push_checked_run {digits : List UInt8} {carry : UInt32}
    (hdigits : ∀ d ∈ digits, d.toNat < c.radix) (hcarry : carry < c.mul) :
    (c.push_checked digits carry : Checked ε _).run = some (.ok (c.push digits carry)) := by
  unfold push_checked
  rw [Checked.run_bind_of_ok (c.pass_checked_run hdigits hcarry)]
  rfl

/-- The run with overflow checks is the run. -/
theorem convert_checked_run {digits : List UInt8} {values : List UInt32}
    (hdigits : ∀ d ∈ digits, d.toNat < c.radix) (hvalues : ∀ v ∈ values, v < c.mul) :
    (c.convert_checked digits values : Checked ε _).run = some (.ok (c.convert digits values)) := by
  induction values generalizing digits with
  | nil => rfl
  | cons v values ih =>
    rw [List.forall_mem_cons] at hvalues
    unfold convert_checked
    rw [List.foldlM_cons, Checked.run_bind_of_ok (c.push_checked_run hdigits hvalues.1)]
    exact ih (c.push_lt digits v) hvalues.2

end Conversion

end Lib
