import LedgerArchive.Common.Affected

/-! # Truncated metadata

    A read that succeeds consumes some bytes. `Consumes` says what these
    bytes are to the reader: wherever they stand, it reads the same, and
    where the buffer ends in the middle of them, it fails. Every reader of
    the decoder consumes what it reads (`Consuming`), the loops included, so
    a buffer that ends inside an array is an error.

    The readers take their rounds as the first argument. -/

namespace LedgerArchive

open Lib

variable {α β γ δ : Type}

/-! ## What a reader consumes -/

/-- The buffer ends in the middle of the bytes `x` at `d`. -/
def Cursor.Short (d : Cursor) (x : Bytes) : Prop := d.rest <+: x ∧ d.rest.length < x.length

/-- On the bytes `x` the reader returns `b` and the cursor behind them; on
    less it fails. `mk` puts the two into a result. -/
structure Consumes (mk : β → Cursor → α) (g : Nat → Cursor → Except Error α) (x : Bytes) (b : β) :
    Prop where
  reads : ∀ n d d', d.Past x d' → d.rest.length < n → g n d = .ok (mk b d')
  fails : ∀ n d, d.Short x → d.rest.length < n → ∃ e, g n d = .error e

/-- Whatever the reader reads with `n` rounds, it consumes. -/
def Consuming (mk : β → Cursor → α) (g : Nat → Cursor → Except Error α) (n : Nat) : Prop :=
  ∀ c r, g n c = .ok r → ∃ b x c', r = mk b c' ∧ c.Past x c' ∧ Consumes mk g x b

/-- The result of a reader that returns the cursor only. -/
def cursor_only (_ : Unit) (c : Cursor) : Cursor := c

section Combinators

variable {mk : β → Cursor → α} {mk' : δ → Cursor → γ} {n : Nat}

theorem Cursor.Past.length_eq {d d' : Cursor} {x : Bytes} (h : d.Past x d') :
    d.rest.length = x.length + d'.rest.length := by
  rw [h.2, List.length_append]

theorem Cursor.Past.length_le {d d' : Cursor} {x : Bytes} (h : d.Past x d') :
    d'.rest.length ≤ d.rest.length := by
  rw [h.length_eq]
  exact Nat.le_add_left _ _

theorem Cursor.past_nil {d d' : Cursor} (h : d.Past [] d') : d' = d :=
  h.unique ⟨rfl, rfl⟩

/-- A buffer that ends within `x ++ y` ends within `x`, or behind it. -/
theorem Cursor.short_append {d : Cursor} {x y : Bytes} (h : d.Short (x ++ y)) :
    d.Short x ∨ ∃ d', d.Past x d' ∧ d'.Short y := by
  obtain ⟨hbegins, hlt⟩ := h
  by_cases hx : d.rest.length < x.length
  · exact .inl ⟨List.prefix_of_prefix_length_le hbegins (List.prefix_append x y)
      (Nat.le_of_lt hx), hx⟩
  · obtain ⟨z, hz⟩ := List.prefix_of_prefix_length_le (List.prefix_append x y) hbegins
      (Nat.not_lt.mp hx)
    have hlen := congrArg List.length hz
    rw [List.length_append, Cursor.rest_length] at hlen
    have hle := d.i_le
    have hdrop : d.b.drop (d.i + x.length) = z := by
      rw [← List.drop_drop]
      show d.rest.drop x.length = z
      rw [← hz, List.drop_left' rfl]
    have hrest : (⟨d.b, d.i + x.length, by omega⟩ : Cursor).rest = z := hdrop
    refine .inr ⟨⟨d.b, d.i + x.length, by omega⟩, ⟨rfl, by rw [hrest, hz]⟩, ?_, ?_⟩
    · rw [hrest]
      rw [← hz] at hbegins
      exact (List.prefix_append_right_inj x).mp hbegins
    · rw [hrest]
      rw [← hz, List.length_append, List.length_append] at hlt
      omega

theorem consuming_pure (b : β) : Consuming mk (fun _ c => pure (mk b c)) n := by
  intro c r h
  rw [pure_eq_ok] at h
  refine ⟨b, [], c, h.symm, ⟨rfl, rfl⟩, ?_, ?_⟩
  · intro n d d' hpast _
    rw [Cursor.past_nil hpast]
    rfl
  · intro n d hshort _
    exact absurd hshort.2 (Nat.not_lt_zero _)

theorem consuming_pair (b : β) : Consuming Prod.mk (fun _ c => pure (b, c)) n := consuming_pure b

theorem consuming_error {e : Error} : Consuming mk (fun _ _ => .error e) n := by
  intro c r h
  cases h

theorem consuming_bail_if {p : Prop} [Decidable p] {e : Error} {f : Nat → Cursor → Except Error α}
    (hf : ¬ p → Consuming mk f n) : Consuming mk (fun n c => bail_if p e >>= fun _ => f n c) n := by
  intro c r h
  obtain ⟨hp, hr⟩ := bail_if_bind_ok.mp h
  obtain ⟨b, x, c', hb, hpast, hcons⟩ := hf hp c r hr
  refine ⟨b, x, c', hb, hpast, ?_, ?_⟩
  · intro n d d' hd hn
    rw [bail_if_neg hp]
    exact hcons.reads n d d' hd hn
  · intro n d hd hn
    rw [bail_if_neg hp]
    exact hcons.fails n d hd hn

theorem Consumes.bind {g : Nat → Cursor → Except Error α} {f : Nat → α → Except Error γ}
    {x y : Bytes} {b : β} {b' : δ} (hg : Consumes mk g x b)
    (hf : Consumes mk' (fun n c => f n (mk b c)) y b') :
    Consumes mk' (fun n c => g n c >>= f n) (x ++ y) b' where
  reads n d d'' hpast hn := by
    obtain ⟨d', hx, hy⟩ := Cursor.past_append.mp hpast
    rw [bind_of_ok (hg.reads n d d' hx hn)]
    exact hf.reads n d' d'' hy (Nat.lt_of_le_of_lt hx.length_le hn)
  fails n d hshort hn := by
    rcases Cursor.short_append hshort with hx | ⟨d', hx, hy⟩
    · obtain ⟨e, he⟩ := hg.fails n d hx hn
      exact ⟨e, by rw [he]; rfl⟩
    · rw [bind_of_ok (hg.reads n d d' hx hn)]
      exact hf.fails n d' hy (Nat.lt_of_le_of_lt hx.length_le hn)

/-- Two readers, one after the other. -/
theorem Consuming.bind {g : Nat → Cursor → Except Error α} {f : Nat → α → Except Error γ}
    (hg : Consuming mk g n) (hf : ∀ b, Consuming mk' (fun n c => f n (mk b c)) n) :
    Consuming mk' (fun n c => g n c >>= f n) n := by
  intro c r h
  obtain ⟨a, ha, hr⟩ := bind_eq_ok.mp h
  obtain ⟨b, x, c', rfl, hx, hcx⟩ := hg c a ha
  obtain ⟨b', y, c'', rfl, hy, hcy⟩ := hf b c' r hr
  exact ⟨b', x ++ y, c'', rfl, Cursor.past_append.mpr ⟨c', hx, hy⟩, hcx.bind hcy⟩

/-- The end of a round. `g` reads a header, then `f` goes on with one round
    less. -/
theorem Consumes.round {g : Nat → Cursor → Except Error α}
    {f : Nat → (Nat × Nat) × Cursor → Except Error α} {x y : Bytes} {p : Nat × Nat} {b : β}
    (hheader : Consumes Prod.mk (fun _ c => c.read_field_header) x p) (hx : x ≠ [])
    (hg : ∀ n c, g (n + 1) c = c.read_field_header >>= f n)
    (hf : Consumes mk (fun n c => f n (p, c)) y b) : Consumes mk g (x ++ y) b where
  reads n d d'' hpast hn := by
    obtain ⟨d', hx', hy⟩ := Cursor.past_append.mp hpast
    have hlen := hx'.length_eq
    have hpos := List.length_pos_iff.mpr hx
    cases n with
    | zero => exact absurd hn (Nat.not_lt_zero _)
    | succ n =>
      rw [hg, bind_of_ok (hheader.reads _ d d' hx' hn)]
      exact hf.reads n d' d'' hy (by omega)
  fails n d hshort hn := by
    cases n with
    | zero => exact absurd hn (Nat.not_lt_zero _)
    | succ n =>
      rw [hg]
      rcases Cursor.short_append hshort with hx' | ⟨d', hx', hy⟩
      · obtain ⟨e, he⟩ := hheader.fails _ d hx' hn
        exact ⟨e, by rw [he]; rfl⟩
      · have hlen := hx'.length_eq
        have hpos := List.length_pos_iff.mpr hx
        rw [bind_of_ok (hheader.reads _ d d' hx' hn)]
        exact hf.fails n d' hy (by omega)

end Combinators

/-! ## The cursor's readers -/

theorem take_consuming (k n : Nat) : Consuming Prod.mk (fun _ c => c.take k) n := by
  intro c r h
  obtain ⟨s, c'⟩ := r
  obtain ⟨hb, -, hlen, hrest⟩ := Cursor.take_ok h
  refine ⟨s, s, c', rfl, ⟨hb, hrest⟩, ?_, ?_⟩
  · intro _ d d' hpast _
    exact Cursor.take_past hpast hlen
  · intro _ d hshort _
    have hlt := hshort.2
    rw [Cursor.rest_length, hlen] at hlt
    unfold Cursor.take
    rw [dif_neg (by have := d.i_le; omega)]
    exact ⟨_, rfl⟩

theorem byte_consuming (n : Nat) : Consuming Prod.mk (fun _ c => c.byte) n := by
  unfold Cursor.byte
  exact (take_consuming 1 n).bind fun s => consuming_pair (s.getD 0 0)

theorem pass_consuming (k n : Nat) : Consuming cursor_only (fun _ c => c.pass k) n := by
  unfold Cursor.pass
  exact (take_consuming k n).bind fun _ => consuming_pure ()

theorem read_vl_len_consuming (n : Nat) : Consuming Prod.mk (fun _ c => c.read_vl_len) n := by
  unfold Cursor.read_vl_len
  refine (byte_consuming n).bind fun b1 => ?_
  by_cases h1 : b1.toNat ≤ 192
  · simp only [if_pos h1]
    exact consuming_pair b1.toNat
  by_cases h2 : b1.toNat ≤ 240
  · simp only [if_neg h1, if_pos h2]
    exact (byte_consuming n).bind fun b2 => consuming_pair (193 + (b1.toNat - 193) * 256 + b2.toNat)
  · simp only [if_neg h1, if_neg h2]
    refine (byte_consuming n).bind fun b2 => ?_
    dsimp only
    exact (byte_consuming n).bind fun b3 =>
      consuming_pair (12481 + (b1.toNat - 241) * 65536 + b2.toNat * 256 + b3.toNat)

theorem or_next_byte_consuming (code n : Nat) :
    Consuming Prod.mk (fun _ c => c.or_next_byte code) n := by
  unfold Cursor.or_next_byte
  split
  · exact (byte_consuming n).bind fun b => consuming_pair b.toNat
  · exact consuming_pair code

theorem read_field_header_consuming (n : Nat) :
    Consuming Prod.mk (fun _ c => c.read_field_header) n := by
  unfold Cursor.read_field_header
  exact (byte_consuming n).bind fun b => (or_next_byte_consuming _ n).bind fun t =>
    (or_next_byte_consuming _ n).bind fun f => consuming_pair (t, f)

theorem read_account_consuming (n : Nat) : Consuming Prod.mk (fun _ c => read_account c) n := by
  unfold read_account
  refine (read_vl_len_consuming n).bind fun len => ?_
  dsimp only
  split
  · exact consuming_pair none
  · exact (take_consuming 20 n).bind fun s => consuming_pair (some (AccountID.ofBytes s))
  · exact consuming_error

/-! ## Values -/

theorem peek_of_rest {d : Cursor} {b : UInt8} {x : Bytes} (h : d.rest = b :: x) :
    d.peek = .ok b := by
  have hlen := congrArg List.length h
  rw [Cursor.rest_length, List.length_cons] at hlen
  have hpast : d.Past (b :: x) ⟨d.b, d.b.length, Nat.le_refl _⟩ := by
    refine ⟨rfl, ?_⟩
    rw [h]
    simp [Cursor.rest]
  exact Cursor.peek_past hpast

theorem rest_of_peek {d : Cursor} {b : UInt8} (h : d.peek = .ok b) : ∃ x, d.rest = b :: x := by
  cases hrest : d.rest with
  | nil =>
    have hlen := d.rest_length
    rw [hrest, List.length_nil] at hlen
    unfold Cursor.peek at h
    rw [ok_or_eq_ok, List.getElem?_eq_none (by omega)] at h
    cases h
  | cons b' x =>
    rw [peek_of_rest hrest, Except.ok.injEq] at h
    exact ⟨x, by rw [h]⟩

/-- A reader that looks at the next byte before it reads on. It does not
    get by with no bytes at all. -/
theorem peek_consuming {mk : β → Cursor → α} {n : Nat}
    {f : UInt8 → Nat → Cursor → Except Error α} (hf : ∀ b, Consuming mk (f b) n)
    (hempty : ∀ b n d, d.rest = [] → ∃ e, f b n d = .error e) :
    Consuming mk (fun n c => c.peek >>= fun b => f b n c) n := by
  intro c r h
  obtain ⟨first, hpeek, hr⟩ := bind_eq_ok.mp h
  obtain ⟨b, x, c', rfl, hpast, hcons⟩ := hf first c r hr
  -- The reader consumes the byte it has looked at.
  obtain ⟨y, hy⟩ := rest_of_peek hpeek
  cases x with
  | nil =>
    let d : Cursor := ⟨[], 0, Nat.le_refl _⟩
    obtain ⟨e, he⟩ := hempty first 1 d rfl
    rw [hcons.reads 1 d d ⟨rfl, rfl⟩ Nat.one_pos] at he
    cases he
  | cons first' x =>
    rw [hpast.2, List.cons_append, List.cons.injEq] at hy
    obtain ⟨rfl, -⟩ := hy
    refine ⟨b, _, c', rfl, hpast, ?_, ?_⟩
    · intro n d d' hd hn
      rw [bind_of_ok (peek_of_rest hd.2)]
      exact hcons.reads n d d' hd hn
    · intro n d hshort hn
      cases hrest : d.rest with
      | nil =>
        cases hp : d.peek with
        | error e => exact ⟨e, rfl⟩
        | ok b' =>
          obtain ⟨_, hcons'⟩ := rest_of_peek hp
          rw [hrest] at hcons'
          cases hcons'
      | cons b' z =>
        have hbegins := hshort.1
        rw [hrest, List.cons_prefix_cons] at hbegins
        obtain ⟨rfl, -⟩ := hbegins
        rw [bind_of_ok (peek_of_rest hrest)]
        exact hcons.fails n d hshort hn

theorem pass_empty {d : Cursor} (h : d.rest = []) (k : Nat) (f : Cursor → Except Error α) :
    ∃ e, (d.pass (k + 1) >>= f) = .error e := by
  have hlen := d.rest_length
  rw [h, List.length_nil] at hlen
  unfold Cursor.pass Cursor.take
  rw [dif_neg (by omega)]
  exact ⟨_, rfl⟩

theorem read_amount_consuming (n : Nat) : Consuming Prod.mk (fun _ c => read_amount c) n := by
  unfold read_amount
  refine peek_consuming (fun first => ?_) fun first n d hd => ?_
  · by_cases hissued : first &&& AMOUNT_ISSUED_CURRENCY ≠ 0
    · simp only [if_pos hissued]
      exact (pass_consuming 8 n).bind fun _ => (pass_consuming 20 n).bind fun _ =>
        (take_consuming 20 n).bind fun issuer => consuming_pair (nonzero issuer)
    by_cases hmpt : first &&& AMOUNT_MPT ≠ 0
    · simp only [if_neg hissued, if_pos hmpt]
      exact (pass_consuming 8 n).bind fun _ => (pass_consuming 1 n).bind fun _ =>
        (take_consuming 24 n).bind fun id => consuming_pair (mpt_issuer id)
    · simp only [if_neg hissued, if_neg hmpt]
      exact (pass_consuming 8 n).bind fun _ => consuming_pair none
  · -- All three shapes begin with eight bytes.
    dsimp only
    split
    · exact pass_empty hd 7 _
    split
    · exact pass_empty hd 7 _
    · exact pass_empty hd 7 _

theorem skip_issue_consuming (n : Nat) : Consuming cursor_only (fun _ c => skip_issue c) n := by
  unfold skip_issue
  refine (take_consuming 20 n).bind fun first => ?_
  by_cases hnative : (first.all fun b => b = 0) = true
  · simp only [if_pos hnative]
    exact consuming_pure ()
  · simp only [if_neg hnative]
    refine (take_consuming 20 n).bind fun second => ?_
    by_cases hmpt : second = NO_ACCOUNT
    · simp only [if_pos hmpt]
      exact pass_consuming 4 n
    · simp only [if_neg hmpt]
      exact consuming_pure ()

/-- A value is consumed, if the fields of the objects and arrays inside it
    are. -/
theorem skip_value_consuming {n : Nat}
    (hfields : ∀ end_type, Consuming cursor_only (fun n c => skip_fields n c end_type) n)
    (t : Nat) :
    Consuming cursor_only (fun n c => skip_value (skip_fields n) c t) n := by
  have hvl : Consuming cursor_only
      (fun _ c => c.read_vl_len >>= fun a => a.2.pass a.1) n :=
    (read_vl_len_consuming n).bind fun len => pass_consuming len n
  have hamount : Consuming cursor_only (fun _ c => read_amount c >>= fun a => pure a.2) n :=
    (read_amount_consuming n).bind fun _ => consuming_pure ()
  unfold skip_value
  split
  case h_16 => exact hamount
  case h_17 => exact hvl
  case h_18 => exact hvl
  case h_19 => exact hvl
  case h_20 => exact skip_issue_consuming n
  case h_21 => exact hfields TYPE_OBJECT
  case h_22 => exact hfields TYPE_ARRAY
  case h_23 => exact consuming_error
  -- The types of a fixed width.
  all_goals exact pass_consuming _ n

/-! ## The loops -/

/-- A loop consumes what its rounds do, whatever `i` it starts from. The
    induction is on the rounds of the run that succeeds. -/
theorem loop_consuming {ι : Type} {mk : β → Cursor → α} {g : ι → Nat → Cursor → Except Error α}
    {f : ι → Nat → (Nat × Nat) × Cursor → Except Error α}
    (hzero : ∀ i c, ∃ e, g i 0 c = .error e)
    (hg : ∀ i n c, g i (n + 1) c = c.read_field_header >>= f i n)
    (hf : ∀ n, (∀ i, Consuming mk (g i) n) → ∀ i p, Consuming mk (fun n c => f i n (p, c)) n)
    (n : Nat) : ∀ i, Consuming mk (g i) n := by
  induction n with
  | zero =>
    intro i c r h
    obtain ⟨e, he⟩ := hzero i c
    rw [he] at h
    cases h
  | succ n ih =>
    intro i c r h
    rw [hg] at h
    obtain ⟨⟨p, c₁⟩, hheader, hr⟩ := bind_eq_ok.mp h
    have hshrinks : c₁.rest.length < c.rest.length := c.read_field_header_leaves.2 _ hheader
    obtain ⟨p', x, c', heq, hx, hcx⟩ := read_field_header_consuming n c _ hheader
    obtain ⟨rfl, rfl⟩ := Prod.mk.inj heq
    obtain ⟨b, y, c'', rfl, hy, hcy⟩ := hf n ih i p c₁ r hr
    refine ⟨b, x ++ y, c'', rfl, Cursor.past_append.mpr ⟨c₁, hx, hy⟩, hcx.round ?_ (hg i) hcy⟩
    -- A header is not empty, so the rounds that are left are enough.
    rintro rfl
    rw [Cursor.past_nil hx] at hshrinks
    exact Nat.lt_irrefl _ hshrinks

theorem skip_fields_consuming (n : Nat) : ∀ end_type,
    Consuming cursor_only (fun n c => skip_fields n c end_type) n := by
  refine loop_consuming (fun _ _ => ⟨_, rfl⟩) (fun _ _ _ => rfl) (fun n ih end_type p => ?_) n
  obtain ⟨t, f⟩ := p
  by_cases hend : t = end_type ∧ f = 1
  · simp only [if_pos hend]
    exact consuming_pure ()
  · simp only [if_neg hend]
    exact (skip_value_consuming ih t).bind fun _ => ih end_type

theorem collect_field_consuming (n t f : Nat) (out : Finset AccountID) :
    Consuming Prod.mk (fun n c => collect_field n c t f out) n := by
  unfold collect_field
  by_cases haccount : t = TYPE_ACCOUNT
  · simp only [if_pos haccount]
    exact (read_account_consuming n).bind fun a => consuming_pair (insert_some a out)
  by_cases hamount : t = TYPE_AMOUNT ∧
      (f = F_TAKER_PAYS ∨ f = F_TAKER_GETS ∨ f = F_LOW_LIMIT ∨ f = F_HIGH_LIMIT)
  · simp only [if_neg haccount, if_pos hamount]
    exact (read_amount_consuming n).bind fun issuer => consuming_pair (insert_some issuer out)
  by_cases hissuance : t = TYPE_UINT192 ∧ f = F_MPT_ISSUANCE_ID
  · simp only [if_neg haccount, if_neg hamount, if_pos hissuance]
    exact (take_consuming 24 n).bind fun id => consuming_pair (insert_some (mpt_issuer id) out)
  · simp only [if_neg haccount, if_neg hamount, if_neg hissuance]
    exact (skip_value_consuming (skip_fields_consuming n) t).bind fun _ => consuming_pair out

theorem collect_inner_consuming (n : Nat) : ∀ out,
    Consuming Prod.mk (fun n c => collect_inner n c out) n := by
  refine loop_consuming (fun _ _ => ⟨_, rfl⟩) (fun _ _ _ => rfl) (fun n ih out p => ?_) n
  obtain ⟨t, f⟩ := p
  by_cases hend : t = TYPE_OBJECT ∧ f = 1
  · simp only [if_pos hend]
    exact consuming_pair out
  · simp only [if_neg hend]
    exact (collect_field_consuming n t f out).bind fun out => ih out

theorem collect_node_consuming (wanted n : Nat) : ∀ out,
    Consuming Prod.mk (fun n c => collect_node n c wanted out) n := by
  refine loop_consuming (fun _ _ => ⟨_, rfl⟩) (fun _ _ _ => rfl) (fun n ih out p => ?_) n
  obtain ⟨t, f⟩ := p
  by_cases hend : t = TYPE_OBJECT ∧ f = 1
  · simp only [if_pos hend]
    exact consuming_pair out
  by_cases hwanted : t = TYPE_OBJECT ∧ f = wanted
  · simp only [if_neg hend, if_pos hwanted]
    exact (collect_inner_consuming n out).bind fun out => ih out
  · simp only [if_neg hend, if_neg hwanted]
    exact (skip_value_consuming (skip_fields_consuming n) t).bind fun _ => ih out

theorem collect_affected_nodes_consuming (n : Nat) : ∀ out,
    Consuming Prod.mk (fun n c => collect_affected_nodes n c out) n := by
  refine loop_consuming (fun _ _ => ⟨_, rfl⟩) (fun _ _ _ => rfl) (fun n ih out p => ?_) n
  obtain ⟨t, f⟩ := p
  by_cases hend : t = TYPE_ARRAY ∧ f = 1
  · simp only [if_pos hend]
    exact consuming_pair out
  · simp only [if_neg hend]
    refine consuming_bail_if fun _ => ?_
    exact (collect_node_consuming (wanted_fields f) n out).bind fun out => ih out

/-! ## The top level -/

/-- One field of the top level, behind its header. -/
def meta_field (fuel : Nat) (c : Cursor) (t f : Nat) (s : MetaScan) :
    Except Error (MetaScan × Cursor) :=
  if t = TYPE_ARRAY ∧ f = F_AFFECTED_NODES then do
    let (accounts, c) ← collect_affected_nodes fuel c s.accounts
    pure ({ s with accounts, saw_affected_nodes := true }, c)
  else if t = TYPE_UINT32 ∧ f = F_TRANSACTION_INDEX then do
    let (b, c) ← c.take 4
    pure ({ s with transaction_index := some (UInt32.ofNat (ofBE b)) }, c)
  else do
    let c ← skip_value (skip_fields fuel) c t
    pure (s, c)

/-- A round of the top-level loop that reads a field. -/
theorem scan_meta_field {fuel t f : Nat} {c c' : Cursor} {s : MetaScan} (heof : c.eof = false)
    (hheader : c.read_field_header = .ok ((t, f), c')) (hmarker : ¬ (t = TYPE_OBJECT ∧ f = 1)) :
    scan_meta (fuel + 1) c s =
      meta_field fuel c' t f s >>= fun p => scan_meta fuel p.2 p.1 := by
  rw [scan_meta, heof, if_neg Bool.false_ne_true, bind_of_ok hheader]
  dsimp only
  rw [if_neg hmarker]
  unfold meta_field
  split
  · rw [bind_assoc]
    rfl
  split
  · rw [bind_assoc]
    rfl
  · rw [bind_assoc]
    rfl

theorem meta_field_consuming (n t f : Nat) (s : MetaScan) :
    Consuming Prod.mk (fun n c => meta_field n c t f s) n := by
  unfold meta_field
  by_cases hnodes : t = TYPE_ARRAY ∧ f = F_AFFECTED_NODES
  · simp only [if_pos hnodes]
    exact (collect_affected_nodes_consuming n s.accounts).bind fun accounts =>
      consuming_pair { s with accounts, saw_affected_nodes := true }
  by_cases hindex : t = TYPE_UINT32 ∧ f = F_TRANSACTION_INDEX
  · simp only [if_neg hnodes, if_pos hindex]
    exact (take_consuming 4 n).bind fun b =>
      consuming_pair { s with transaction_index := some (UInt32.ofNat (ofBE b)) }
  · simp only [if_neg hnodes, if_neg hindex]
    exact (skip_value_consuming (skip_fields_consuming n) t).bind fun _ => consuming_pair s

def start_scan : MetaScan :=
  { accounts := ∅, transaction_index := none, saw_affected_nodes := false }

/-- The run of `summarize_meta` gets to this round of the top-level loop. -/
inductive Scans (meta_blob : Bytes) : Nat → Cursor → MetaScan → Prop where
  | start : Scans meta_blob (meta_blob.length + 1) ⟨meta_blob, 0, Nat.zero_le _⟩ start_scan
  | field {fuel t f : Nat} {c c₁ c₂ : Cursor} {s s' : MetaScan} (h : Scans meta_blob (fuel + 1) c s)
      (heof : c.eof = false) (hheader : c.read_field_header = .ok ((t, f), c₁))
      (hmarker : ¬ (t = TYPE_OBJECT ∧ f = 1)) (hfield : meta_field fuel c₁ t f s = .ok (s', c₂)) :
      Scans meta_blob fuel c₂ s'

/-- `summarize_meta` reads an `AffectedNodes` array, from byte `p` just
    after its header up to byte `q` just after its end marker. -/
def ReadsAffectedNodes (meta_blob : Bytes) (p q : Nat) : Prop :=
  ∃ fuel c s c₁ accounts c₂, Scans meta_blob (fuel + 1) c s ∧ c.eof = false ∧
    c.read_field_header = .ok ((TYPE_ARRAY, F_AFFECTED_NODES), c₁) ∧
    collect_affected_nodes fuel c₁ s.accounts = .ok (accounts, c₂) ∧ p = c₁.i ∧ q = c₂.i

/-! ## Cutting the buffer -/

/-- `d` is `c` in a buffer that ends after `k` bytes. -/
def Cut (k : Nat) (c d : Cursor) : Prop := d.b = c.b.take k ∧ d.i = c.i

section Cut

variable {c c' d : Cursor} {k : Nat} {x : Bytes}

theorem Cursor.Past.index (h : c.Past x c') : c'.i = c.i + x.length := by
  have hlen := h.length_eq
  have hle := c.i_le
  have hle' := c'.i_le
  rw [Cursor.rest_length, Cursor.rest_length, h.1] at hlen
  rw [h.1] at hle'
  omega

theorem Cut.rest (h : Cut k c d) : d.rest = c.rest.take (k - c.i) := by
  unfold Cursor.rest
  rw [h.1, h.2, List.drop_take]

/-- What ends before the cut is there as before. -/
theorem Cut.past (h : Cut k c d) (hpast : c.Past x c') (hk : c'.i ≤ k) :
    ∃ d', Cut k c' d' ∧ d.Past x d' := by
  have hindex := hpast.index
  have hle : c'.i ≤ d.b.length := by
    have hle' := c'.i_le
    rw [h.1, List.length_take, ← hpast.1]
    omega
  have hcut : Cut k c' ⟨d.b, c'.i, hle⟩ := ⟨by rw [hpast.1]; exact h.1, rfl⟩
  refine ⟨_, hcut, rfl, ?_⟩
  have hsub : k - c.i = x.length + (k - c'.i) := by omega
  rw [hcut.rest, h.rest, hpast.2, hsub, List.take_length_add_append]

/-- What ends behind the cut is cut. -/
theorem Cut.short (h : Cut k c d) (hpast : c.Past x c') (hle : c.i ≤ k) (hk : k < c'.i) :
    d.Short x := by
  have hindex := hpast.index
  unfold Cursor.Short
  rw [h.rest, hpast.2, List.take_append_of_le_length (by omega)]
  refine ⟨List.take_prefix _ _, ?_⟩
  rw [List.length_take]
  omega

/-- A header in front of the cut is read as before. -/
theorem Cut.header (h : Cut k c d) {t f fuel : Nat}
    (hheader : c.read_field_header = .ok ((t, f), c'))
    (hk : c'.i ≤ k) (hfuel : d.rest.length < fuel) :
    ∃ m d', fuel = m + 1 ∧ d.eof = false ∧ d.read_field_header = .ok ((t, f), d') ∧ Cut k c' d' ∧
      d'.rest.length < m := by
  obtain ⟨_, x, _, heq, hx, hcx⟩ := read_field_header_consuming 0 c _ hheader
  obtain ⟨rfl, rfl⟩ := Prod.mk.inj heq
  have hne : x ≠ [] := by
    rintro rfl
    have hshrinks : c'.rest.length < c.rest.length := c.read_field_header_leaves.2 _ hheader
    rw [Cursor.past_nil hx] at hshrinks
    exact Nat.lt_irrefl _ hshrinks
  obtain ⟨d', hcut, hd⟩ := h.past hx hk
  have hlen := hd.length_eq
  have hpos := List.length_pos_iff.mpr hne
  obtain ⟨m, rfl⟩ := Nat.exists_eq_add_of_le' (Nat.lt_of_le_of_lt (Nat.zero_le _) hfuel)
  exact ⟨m, d', rfl, Cursor.eof_past hd hne, hcx.reads _ d d' hd hfuel, hcut, by omega⟩

end Cut

/-- A run on the cut buffer gets to every round in front of the cut. -/
theorem Scans.cut {meta_blob : Bytes} {fuel k : Nat} {c : Cursor} {s : MetaScan}
    (h : Scans meta_blob fuel c s) (hk : c.i ≤ k) :
    ∃ fuel' d, Cut k c d ∧ d.rest.length < fuel' ∧
      scan_meta ((meta_blob.take k).length + 1) ⟨meta_blob.take k, 0, Nat.zero_le _⟩ start_scan =
        scan_meta fuel' d s := by
  induction h with
  | start =>
    -- Nothing has been read.
    refine ⟨_, ⟨meta_blob.take k, 0, Nat.zero_le _⟩, ⟨rfl, rfl⟩, ?_, rfl⟩
    exact Nat.lt_succ_self _
  | @field fuel t f c c₁ c₂ s s' _ heof hheader hmarker hfield ih =>
    obtain ⟨_, x, _, heq, hx, -⟩ := read_field_header_consuming 0 c _ hheader
    obtain ⟨-, rfl⟩ := Prod.mk.inj heq
    obtain ⟨_, y, _, heq, hy, hcy⟩ := meta_field_consuming fuel t f s c₁ _ hfield
    obtain ⟨rfl, rfl⟩ := Prod.mk.inj heq
    have hi := hx.index
    have hi' := hy.index
    -- The cut is behind `c₂`, so it is behind `c` too. The header and the
    -- value of the round are in front of it and read the same.
    obtain ⟨fuel', d, hcut, hfuel, hrun⟩ := ih (by omega)
    obtain ⟨m, d₁, rfl, heof', hheader', hcut₁, hm⟩ := hcut.header hheader (by omega) hfuel
    obtain ⟨d₂, hcut₂, hd₂⟩ := hcut₁.past hy hk
    refine ⟨m, d₂, hcut₂, Nat.lt_of_le_of_lt hd₂.length_le hm, ?_⟩
    have hfield' := hcy.reads m d₁ d₂ hd₂ hm
    rw [hrun, scan_meta_field heof' hheader' hmarker, bind_of_ok hfield']

/-- Metadata that ends inside an array of affected nodes is refused. -/
theorem truncated_affected_nodes (meta_blob : Bytes) {p q k : Nat}
    (h : ReadsAffectedNodes meta_blob p q) (hp : p ≤ k) (hq : k < q) :
    ∃ e, summarize_meta (meta_blob.take k) = .error e ∧ e ≠ .fuel := by
  obtain ⟨fuel, c, s, c₁, accounts, c₂, hscans, heof, hheader, hread, rfl, rfl⟩ := h
  obtain ⟨_, x, _, heq, hx, -⟩ := read_field_header_consuming 0 c _ hheader
  obtain ⟨-, rfl⟩ := Prod.mk.inj heq
  obtain ⟨_, y, _, heq, hy, hcy⟩ := collect_affected_nodes_consuming fuel s.accounts c₁ _ hread
  obtain ⟨rfl, rfl⟩ := Prod.mk.inj heq
  have hi := hx.index
  obtain ⟨fuel', d, hcut, hfuel, hrun⟩ := hscans.cut (Nat.le_trans (by omega) hp)
  obtain ⟨m, d₁, rfl, heof', hheader', hcut₁, hm⟩ := hcut.header hheader hp hfuel
  -- The array is all that is cut.
  obtain ⟨e, he⟩ := hcy.fails m d₁ (hcut₁.short hy hp hq) hm
  have hfield : meta_field m d₁ TYPE_ARRAY F_AFFECTED_NODES s = .error e := by
    unfold meta_field
    rw [if_pos ⟨rfl, rfl⟩, he]
    rfl
  have hscan : scan_meta ((meta_blob.take k).length + 1)
      ⟨meta_blob.take k, 0, Nat.zero_le _⟩ start_scan = .error e := by
    rw [hrun, scan_meta_field heof' hheader' (by decide), hfield]
    rfl
  have hsummary : summarize_meta (meta_blob.take k) = .error e := by
    show scan_meta _ _ start_scan >>= _ = _
    rw [hscan]
    rfl
  exact ⟨e, hsummary, summarize_meta_ne_fuel _ e hsummary⟩

/-! ## The metadata of one created account -/

/-- The array begins behind the transaction index and a header of one
    byte. -/
theorem created_account_reads :
    ReadsAffectedNodes (created_account ⟨List.replicate 20 9, rfl⟩).encode 7 34 := by
  have hstart : Scans (created_account ⟨List.replicate 20 9, rfl⟩).encode _ _ _ := .start
  have hindex := hstart.field (t := 2) (f := 28) rfl rfl (by decide) rfl
  exact ⟨_, _, _, _, _, _, hindex, rfl, rfl, rfl, rfl, rfl⟩

theorem truncated_affected_nodes_created : ∃ e,
    summarize_meta ((created_account ⟨List.replicate 20 9, rfl⟩).encode.take 20) = .error e ∧
      e ≠ .fuel :=
  truncated_affected_nodes _ created_account_reads (by decide) (by decide)

end LedgerArchive
