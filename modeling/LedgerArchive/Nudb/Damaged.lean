import LedgerArchive.Lib.Checked
import LedgerArchive.Lib.Endless
import LedgerArchive.Lib.Xxh64
import LedgerArchive.Nudb.Writer

/-! # Reading damaged stores

    The numbers that steer `Shard::open` and `Shard::fetch` come from the
    files. A lookup goes wrong on

    * a key file that is shorter than its block size;
    * a bucket that counts more entries than fit into its block;
    * spill records that form a circle;
    * an entry with another size than the record it points at.

    `fails_loudly_iff` says that nothing else goes wrong. -/

namespace LedgerArchive

open Lib

/-! ## The functions with checked arithmetic -/

def Shard.open_checked (dat key : Bytes) : Checked Error Shard := do
  let hdr ← read_exact_at key 0 64
  bail_if (hdr.take 8 ≠ KEY_MAGIC) (Error.bail "invalid NuDB key magic")
  let key_size := ofBE ((hdr.drop 26).take 2)
  bail_if (key_size ≠ 32) (Error.bail s!"expected key_size=32, got {key_size}")
  let salt := UInt64.ofNat (ofBE ((hdr.drop 28).take 8))
  let block_size := ofBE ((hdr.drop 44).take 2)
  bail_if (block_size = 0) (Error.bail "zero block_size")
  let rest ← checked_sub key.length block_size
  let num_buckets := rest / block_size
  pure { dat, key, salt, block_size, num_buckets, modulus := modulus_for num_buckets }

def Shard.bucket_index_checked (s : Shard) (nhash : Nat) : Checked Error Nat :=
  let n := nhash % s.modulus
  if n ≥ s.num_buckets then checked_sub n (s.modulus / 2) else pure n

/-- Behind the bucket's offset all numbers are fields of at most 48 bits and
    what is added to them. -/
def Shard.fetch_checked (xxh64 : Bytes → UInt64 → UInt64) (fuel : Nat) (s : Shard)
    (key : Hash256) : Checked Error (Option Bytes) := do
  let nhash := nhash_of xxh64 s.salt key
  let bucket ← s.bucket_index_checked nhash
  let off ← checked_mul s.block_size (bucket + 1)
  let block ← read_exact_at s.key off s.block_size
  s.fetch_loop key nhash fuel block

/-! ## Key files and blocks, from their bytes -/

/-- The fields of a key file that `Shard::open` accepts. -/
structure KeyHeader (keyfile : Bytes) (salt : UInt64) (block_size : Nat) : Prop where
  long : 64 ≤ keyfile.length
  magic : keyfile.take 8 = KEY_MAGIC
  key_size : ofBE ((keyfile.drop 26).take 2) = 32
  salted : salt = UInt64.ofNat (ofBE ((keyfile.drop 28).take 8))
  blocks : block_size = ofBE ((keyfile.drop 44).take 2)
  ne_zero : block_size ≠ 0

def count_of (block : Bytes) : Nat := ofBE (block.take 2)

def spill_of (block : Bytes) : Nat := ofBE ((block.drop 2).take 6)

def entry_at (block : Bytes) (i : Nat) : PlacedEntry :=
  let b := BUCKET_HEADER + i * ENTRY_SIZE
  { offset := ofBE ((block.drop b).take 6), size := ofBE ((block.drop (b + 6)).take 6),
    nhash := ofBE ((block.drop (b + 12)).take 6) }

/-- The block is long enough for entry `i`. -/
def Inside (block : Bytes) (i : Nat) : Prop :=
  BUCKET_HEADER + (i + 1) * ENTRY_SIZE ≤ block.length

instance (block : Bytes) (i : Nat) : Decidable (Inside block i) :=
  inferInstanceAs (Decidable (_ ≤ _))

/-- The bucket of a key in a key file. -/
def BucketOf (xxh64 : Bytes → UInt64 → UInt64) (keyfile : Bytes) (key : Hash256) (nhash : Nat)
    (block : Bytes) : Prop :=
  ∃ salt block_size, KeyHeader keyfile salt block_size ∧ nhash = nhash_of xxh64 salt key ∧
    let n := (keyfile.length - block_size) / block_size
    readAt keyfile (block_size * (bucket_of (modulus_for n) n nhash + 1)) block_size = some block

section Chain

variable (dat : Bytes) (key : Hash256) (nhash : Nat)

/-- The block that a spill pointer names. -/
def spill_block (spill : Nat) : Option Bytes := do
  let head ← readAt dat spill BUCKET_HEADER
  readAt dat spill (BUCKET_HEADER + count_of head * ENTRY_SIZE)

/-- A lookup goes no further than this entry: it has the key's hash, and its
    record carries the key or cannot be read. -/
def Settles (e : PlacedEntry) : Prop :=
  e.nhash = nhash ∧
    ∀ head, readAt dat e.offset REC_HEADER = some head → (head.drop 6).take 32 = key.bytes

/-- Entry `i` is the first that is not passed over. -/
structure StopsAt (block : Bytes) (i : Nat) : Prop where
  lt : i < count_of block
  stop : ¬ Inside block i ∨ Settles dat key nhash (entry_at block i)
  first : ∀ j < i, Inside block j ∧ ¬ Settles dat key nhash (entry_at block j)

def Passes (block : Bytes) : Prop :=
  ∀ i < count_of block, Inside block i ∧ ¬ Settles dat key nhash (entry_at block i)

/-- All entries of the block are passed over, and it names a spill record. -/
structure Leads (block : Bytes) (spill : Nat) : Prop where
  passes : Passes dat key nhash block
  names : spill_of block = spill
  ne_zero : spill ≠ 0

/-- A spill record from which the lookup goes on to another. -/
def SpillLink (p q : Nat) : Prop :=
  ∃ block, spill_block dat p = some block ∧ Leads dat key nhash block q

/-- The blocks that the lookup gets to from its bucket. -/
inductive OnChain (bucket : Bytes) : Bytes → Prop where
  | bucket : OnChain bucket bucket
  | spill {block next : Bytes} {p : Nat} (hon : OnChain bucket block)
      (hleads : Leads dat key nhash block p) (hnext : spill_block dat p = some next) :
      OnChain bucket next

end Chain

/-! ## What is asked of a lookup, and of the files -/

/-- A record of the key with the value `val` stands somewhere in the file. -/
def Recorded (dat : Bytes) (key : Hash256) (val : Bytes) : Prop :=
  ∃ off, HasAt dat off (toBE 6 val.length ++ key.bytes ++ val)

/-- Opening the store and looking the key up ends in a result or an error,
    and a value that is returned stands in a record of the key. -/
structure FailsLoudly (xxh64 : Bytes → UInt64 → UInt64) (dat keyfile : Bytes) (key : Hash256) :
    Prop where
  «open» : ¬ (Shard.open_checked dat keyfile).Overflows
  fetch : ∀ s, (Shard.open_checked dat keyfile).run = some (.ok s) →
    ∃ fuel r, (s.fetch_checked xxh64 fuel key).run = some r ∧
      ErrorsIn (fun e => e ≠ .fuel ∧ e ≠ .panic) r
  value : ∀ s fuel val, (Shard.open_checked dat keyfile).run = some (.ok s) →
    (s.fetch_checked xxh64 fuel key).run = some (.ok (some val)) → Recorded dat key val

/-- The files lead no lookup of the key astray. -/
structure Undamaged (xxh64 : Bytes → UInt64 → UInt64) (dat keyfile : Bytes) (key : Hash256) :
    Prop where
  length : ∀ salt block_size, KeyHeader keyfile salt block_size → block_size ≤ keyfile.length
  bucket : ∀ nhash block, BucketOf xxh64 keyfile key nhash block →
    BUCKET_HEADER ≤ block.length ∧ ∀ i, StopsAt dat key nhash block i → Inside block i
  chain : ∀ nhash block p, BucketOf xxh64 keyfile key nhash block →
    Leads dat key nhash block p → ∀ q, Relation.ReflTransGen (SpillLink dat key nhash) p q →
      ¬ Relation.TransGen (SpillLink dat key nhash) q q
  /-- The record that the lookup finds has the size of its entry. Where it
      has not, another record may hold the same key and bytes. -/
  size : ∀ nhash bucket block i val, BucketOf xxh64 keyfile key nhash bucket →
    OnChain dat key nhash bucket block → StopsAt dat key nhash block i →
    let e := entry_at block i
    readAt dat (e.offset + REC_HEADER) e.size = some val →
      readAt dat e.offset 6 = some (toBE 6 e.size) ∨
        ∃ off ≠ e.offset, HasAt dat off (toBE 6 e.size ++ key.bytes ++ val)

/-! ## The entry loop -/

section Entries

variable {s : Shard} {key : Hash256} {nhash : Nat} {block : Bytes}

/-- The record an entry points at, once its key is found to be right. -/
def Shard.answer (s : Shard) (e : PlacedEntry) : Except Error (Option Bytes) := do
  let _ ← read_exact_at s.dat e.offset REC_HEADER
  let val ← read_exact_at s.dat (e.offset + REC_HEADER) e.size
  pure (some val)

theorem slice_inside (off n : Nat) (h : off + n ≤ block.length) :
    slice block off n = .ok ((block.drop off).take n) := by
  unfold slice readAt
  rw [if_pos h]
  rfl

theorem slice_outside {off n : Nat} (h : ¬ off + n ≤ block.length) :
    slice block off n = .error .panic := by
  unfold slice readAt
  rw [if_neg h]
  rfl

theorem scan_outside {n i : Nat} (h : ¬ Inside block i) :
    s.scan_entries key nhash block (n + 1) i = .error .panic := by
  unfold Inside at h
  unfold Shard.scan_entries
  have hslice : slice block (BUCKET_HEADER + i * ENTRY_SIZE + 12) 6 = .error .panic := by
    apply slice_outside
    unfold ENTRY_SIZE at *
    omega
  simp only [hslice]
  rfl

/-- One round on an entry inside the block. -/
theorem scan_inside {n i : Nat} (h : Inside block i) :
    s.scan_entries key nhash block (n + 1) i =
      if (entry_at block i).nhash ≠ nhash then s.scan_entries key nhash block n (i + 1)
      else read_exact_at s.dat (entry_at block i).offset REC_HEADER >>= fun head =>
        if (head.drop 6).take 32 = key.bytes then
          read_exact_at s.dat ((entry_at block i).offset + REC_HEADER) (entry_at block i).size >>=
            fun val => pure (some val)
        else s.scan_entries key nhash block n (i + 1) := by
  unfold Inside ENTRY_SIZE at h
  have hhash := slice_inside (BUCKET_HEADER + i * ENTRY_SIZE + 12) 6
    (show _ ≤ block.length by unfold ENTRY_SIZE; omega)
  have hoffset := slice_inside (BUCKET_HEADER + i * ENTRY_SIZE) 6
    (show _ ≤ block.length by unfold ENTRY_SIZE; omega)
  have hsize := slice_inside (BUCKET_HEADER + i * ENTRY_SIZE + 6) 6
    (show _ ≤ block.length by unfold ENTRY_SIZE; omega)
  rw [Shard.scan_entries]
  simp only [bind_of_ok hhash, bind_of_ok hoffset, bind_of_ok hsize]
  rfl

theorem scan_pass {n i : Nat} (h : Inside block i)
    (hpass : ¬ Settles s.dat key nhash (entry_at block i)) :
    s.scan_entries key nhash block (n + 1) i = s.scan_entries key nhash block n (i + 1) := by
  rw [scan_inside h]
  by_cases hhash : (entry_at block i).nhash = nhash
  · unfold Settles at hpass
    push Not at hpass
    obtain ⟨head, hhead, hkey⟩ := hpass hhash
    have hread : read_exact_at s.dat (entry_at block i).offset REC_HEADER = .ok head :=
      ok_or_eq_ok.mpr hhead
    rw [if_neg (not_not.mpr hhash), bind_of_ok hread, if_neg hkey]
  · rw [if_pos hhash]

theorem scan_settle {n i : Nat} (h : Inside block i)
    (hsettle : Settles s.dat key nhash (entry_at block i)) :
    s.scan_entries key nhash block (n + 1) i = s.answer (entry_at block i) := by
  obtain ⟨hhash, hkey⟩ := hsettle
  rw [scan_inside h, if_neg (not_not.mpr hhash)]
  unfold Shard.answer
  cases hread : read_exact_at s.dat (entry_at block i).offset REC_HEADER with
  | error e => rfl
  | ok head =>
    show (if _ then _ else _) = _
    rw [if_pos (hkey head (ok_or_eq_ok.mp hread))]
    rfl

/-- The loop gets past entries that are passed over. -/
theorem scan_skip {n i k : Nat}
    (h : ∀ j, i ≤ j → j < i + k → Inside block j ∧ ¬ Settles s.dat key nhash (entry_at block j)) :
    s.scan_entries key nhash block (k + n) i = s.scan_entries key nhash block n (i + k) := by
  induction k generalizing i with
  | zero => rw [Nat.zero_add, Nat.add_zero]
  | succ k ih =>
    obtain ⟨hin, hpass⟩ := h i (Nat.le_refl i) (by omega)
    have hrest := @ih (i + 1) fun j hj hlt => h j (by omega) (by omega)
    rw [Nat.add_right_comm, scan_pass hin hpass, hrest, Nat.add_right_comm, Nat.add_assoc]

/-- What the entry loop does with a whole block. -/
theorem scan_passes (h : Passes s.dat key nhash block) :
    s.scan_entries key nhash block (count_of block) 0 = .ok none := by
  have hskip := scan_skip (s := s) (n := 0) (i := 0) (k := count_of block) fun j _ hj =>
    h j (by omega)
  rw [Nat.add_zero] at hskip
  rw [hskip]
  rfl

theorem scan_stops {i : Nat} (h : StopsAt s.dat key nhash block i) :
    s.scan_entries key nhash block (count_of block) 0 =
      if Inside block i then s.answer (entry_at block i) else .error .panic := by
  obtain ⟨n, hn⟩ : ∃ n, count_of block = i + (n + 1) := ⟨count_of block - i - 1, by
    have := h.lt
    omega⟩
  have hskip := scan_skip (s := s) (n := n + 1) (i := 0) (k := i) fun j _ hj => h.first j (by omega)
  rw [hn, hskip, Nat.zero_add]
  by_cases hin : Inside block i
  · rw [if_pos hin]
    exact scan_settle hin (h.stop.resolve_left (not_not.mpr hin))
  · rw [if_neg hin]
    exact scan_outside hin

/-- All entries of a block are passed over, or there is a first that is
    not. -/
theorem passes_or_stops (dat : Bytes) (key : Hash256) (nhash : Nat) (block : Bytes) :
    Passes dat key nhash block ∨ ∃ i, StopsAt dat key nhash block i := by
  by_cases hpass : Passes dat key nhash block
  · exact .inl hpass
  · unfold Passes at hpass
    push Not at hpass
    classical
    have hstop : ∃ i, i < count_of block ∧
        (Inside block i → Settles dat key nhash (entry_at block i)) := hpass
    obtain ⟨hlt, hi⟩ := Nat.find_spec hstop
    refine .inr ⟨Nat.find hstop, hlt, not_or_of_imp hi, fun j hj => ?_⟩
    have hmin := Nat.find_min hstop hj
    push Not at hmin
    exact hmin (hj.trans hlt)

end Entries

/-! ## The loop over the chain -/

section Loop

variable {s : Shard} {key : Hash256} {nhash : Nat} {block : Bytes}

theorem fetch_loop_short (h : ¬ BUCKET_HEADER ≤ block.length) (fuel : Nat) :
    s.fetch_loop key nhash (fuel + 1) block = .error .panic := by
  unfold BUCKET_HEADER at h
  rw [Shard.fetch_loop]
  have hspill : slice block 2 6 = .error .panic := slice_outside (by omega)
  by_cases hcount : 0 + 2 ≤ block.length
  · rw [bind_of_ok (slice_inside 0 2 hcount), hspill]
    rfl
  · rw [slice_outside hcount]
    rfl

/-- One round on a block with its two numbers. -/
theorem fetch_loop_succ (h : BUCKET_HEADER ≤ block.length) (fuel : Nat) :
    s.fetch_loop key nhash (fuel + 1) block =
      (s.scan_entries key nhash block (count_of block) 0 >>= fun found =>
        match found with
        | some val => pure (some val)
        | none =>
          if spill_of block = 0 then pure none
          else read_exact_at s.dat (spill_of block) BUCKET_HEADER >>= fun head =>
            read_exact_at s.dat (spill_of block) (BUCKET_HEADER + count_of head * ENTRY_SIZE) >>=
              s.fetch_loop key nhash fuel) := by
  unfold BUCKET_HEADER at h
  rw [Shard.fetch_loop, bind_of_ok (slice_inside 0 2 (by omega)),
    bind_of_ok (slice_inside 2 6 (by omega))]
  rfl

theorem fetch_loop_stops (h : BUCKET_HEADER ≤ block.length) {i : Nat}
    (hstop : StopsAt s.dat key nhash block i) (fuel : Nat) :
    s.fetch_loop key nhash (fuel + 1) block =
      if Inside block i then s.answer (entry_at block i) else .error .panic := by
  rw [fetch_loop_succ h, scan_stops hstop]
  by_cases hin : Inside block i
  · rw [if_pos hin]
    unfold Shard.answer
    simp only [bind_assoc, pure_bind]
  · rw [if_neg hin]
    rfl

theorem fetch_loop_ends (h : BUCKET_HEADER ≤ block.length)
    (hpass : Passes s.dat key nhash block) (hlast : spill_of block = 0) (fuel : Nat) :
    s.fetch_loop key nhash (fuel + 1) block = .ok none := by
  rw [fetch_loop_succ h, bind_of_ok (scan_passes hpass)]
  simp only [if_pos hlast]
  rfl

/-- The lookup goes on with the block that the pointer names. -/
theorem fetch_loop_next (h : BUCKET_HEADER ≤ block.length) {p : Nat}
    (hleads : Leads s.dat key nhash block p) {next : Bytes}
    (hnext : spill_block s.dat p = some next) (fuel : Nat) :
    s.fetch_loop key nhash (fuel + 1) block = s.fetch_loop key nhash fuel next := by
  obtain ⟨hpass, rfl, hne⟩ := hleads
  obtain ⟨head, hhead, hbody⟩ := Option.bind_eq_some_iff.mp hnext
  have hread : read_exact_at s.dat (spill_of block) BUCKET_HEADER = .ok head :=
    ok_or_eq_ok.mpr hhead
  have hread' : read_exact_at s.dat (spill_of block)
      (BUCKET_HEADER + count_of head * ENTRY_SIZE) = .ok next := ok_or_eq_ok.mpr hbody
  rw [fetch_loop_succ h, bind_of_ok (scan_passes hpass)]
  simp only [if_neg hne, bind_of_ok hread, bind_of_ok hread']

/-- The pointer names no block: the file ends too early. -/
theorem fetch_loop_cut (h : BUCKET_HEADER ≤ block.length) {p : Nat}
    (hleads : Leads s.dat key nhash block p) (hnext : spill_block s.dat p = none) (fuel : Nat) :
    s.fetch_loop key nhash (fuel + 1) block = .error (.bail "failed to fill whole buffer") := by
  obtain ⟨hpass, rfl, hne⟩ := hleads
  rw [fetch_loop_succ h, bind_of_ok (scan_passes hpass)]
  simp only [if_neg hne]
  unfold spill_block at hnext
  unfold read_exact_at
  cases hhead : readAt s.dat (spill_of block) BUCKET_HEADER with
  | none => rfl
  | some head =>
    rw [hhead] at hnext
    have hbody : readAt s.dat (spill_of block) (BUCKET_HEADER + count_of head * ENTRY_SIZE) =
        none := hnext
    show (ok_or (readAt s.dat (spill_of block) _) _ >>= _) = _
    rw [hbody]
    rfl

/-- A spill block is as long as its count says. -/
theorem spill_block_length {dat next : Bytes} {p : Nat} (h : spill_block dat p = some next) :
    next.length = BUCKET_HEADER + count_of next * ENTRY_SIZE := by
  obtain ⟨head, hhead, hbody⟩ := Option.bind_eq_some_iff.mp h
  have hcount : count_of next = count_of head := by
    unfold count_of BUCKET_HEADER at *
    rw [readAt_take hbody (by omega), readAt_take hhead (by omega)]
  rw [hcount]
  exact readAt_length hbody

theorem spill_block_header {dat next : Bytes} {p : Nat} (h : spill_block dat p = some next) :
    BUCKET_HEADER ≤ next.length := by
  rw [spill_block_length h]
  exact Nat.le_add_right _ _

/-- All entries of a spill block are inside it. -/
theorem spill_block_inside {dat next : Bytes} {p i : Nat} (h : spill_block dat p = some next)
    (hi : i < count_of next) : Inside next i := by
  unfold Inside
  rw [spill_block_length h]
  exact Nat.add_le_add_left (Nat.mul_le_mul_right _ hi) _

theorem answer_errors (s : Shard) (e : PlacedEntry) :
    ErrorsIn (fun e => e ≠ .fuel ∧ e ≠ .panic) (s.answer e) := by
  have hread : ∀ off n, ErrorsIn (fun e => e ≠ .fuel ∧ e ≠ .panic) (read_exact_at s.dat off n) :=
    fun off n => errorsIn_ok_or ⟨by simp, by simp⟩
  unfold Shard.answer
  refine (hread _ _).bind fun _ _ => (hread _ _).bind fun _ _ => ?_
  exact errorsIn_pure _

/-! ## The chain to its end -/

/-- Spill records lie in the file, so there are finitely many. -/
theorem link_finite (dat : Bytes) (key : Hash256) (nhash : Nat) :
    {p | ∃ q, SpillLink dat key nhash p q}.Finite := by
  refine (Set.finite_Iic dat.length).subset ?_
  intro p hp
  obtain ⟨q, block, hblock, -⟩ := hp
  obtain ⟨head, hhead, -⟩ := Option.bind_eq_some_iff.mp hblock
  unfold readAt at hhead
  split at hhead
  · next hle => exact Nat.le_of_add_right_le hle
  · cases hhead

/-- From a block whose entries are inside, the lookup ends when it ends
    from the block that is named there. -/
theorem fetch_loop_terminates (h : BUCKET_HEADER ≤ block.length)
    (hinside : ∀ i, StopsAt s.dat key nhash block i → Inside block i)
    (hnext : ∀ p, Leads s.dat key nhash block p → ∀ next, spill_block s.dat p = some next →
      ∃ fuel, ErrorsIn (fun e => e ≠ .fuel ∧ e ≠ .panic) (s.fetch_loop key nhash fuel next)) :
    ∃ fuel, ErrorsIn (fun e => e ≠ .fuel ∧ e ≠ .panic) (s.fetch_loop key nhash fuel block) := by
  rcases passes_or_stops s.dat key nhash block with hpass | ⟨i, hstop⟩
  · -- Every entry is passed over, and the spill pointer decides.
    by_cases hlast : spill_of block = 0
    · refine ⟨1, ?_⟩
      rw [fetch_loop_ends h hpass hlast]
      exact errorsIn_ok none
    · have hleads : Leads s.dat key nhash block (spill_of block) := ⟨hpass, rfl, hlast⟩
      cases hspill : spill_block s.dat (spill_of block) with
      | none =>
        refine ⟨1, ?_⟩
        rw [fetch_loop_cut h hleads hspill]
        exact errorsIn_error.mpr ⟨by simp, by simp⟩
      | some next =>
        obtain ⟨fuel, hfuel⟩ := hnext _ hleads next hspill
        refine ⟨fuel + 1, ?_⟩
        rw [fetch_loop_next h hleads hspill]
        exact hfuel
  · -- The lookup ends at an entry. Outside the block it would be a panic.
    refine ⟨1, ?_⟩
    rw [fetch_loop_stops h hstop, if_pos (hinside i hstop)]
    exact answer_errors s _

/-- A chain without a circle is followed to its end. -/
theorem spill_terminates {p : Nat} (hacc : Acc (flip (SpillLink s.dat key nhash)) p) :
    ∀ block, spill_block s.dat p = some block →
      ∃ fuel, ErrorsIn (fun e => e ≠ .fuel ∧ e ≠ .panic) (s.fetch_loop key nhash fuel block) := by
  induction hacc with
  | intro p _ ih =>
    intro block hblock
    apply fetch_loop_terminates (spill_block_header hblock)
    · exact fun i hstop => spill_block_inside hblock hstop.lt
    · exact fun q hleads next hnext => ih q ⟨block, hblock, hleads⟩ next hnext

/-- A pointer of a circle names a block. -/
theorem circle_block {dat : Bytes} {q : Nat}
    (hcircle : Relation.TransGen (SpillLink dat key nhash) q q) : ∃ b, spill_block dat q = some b := by
  obtain ⟨_, ⟨b, hb, -⟩, -⟩ := Relation.TransGen.head'_iff.mp hcircle
  exact ⟨b, hb⟩

/-- A chain that runs into a circle is followed for ever. -/
theorem spill_endless {p q : Nat} (hreach : Relation.ReflTransGen (SpillLink s.dat key nhash) p q)
    (hcircle : Relation.TransGen (SpillLink s.dat key nhash) q q)
    {block : Bytes} (hblock : spill_block s.dat p = some block) (fuel : Nat) :
    s.fetch_loop key nhash fuel block = .error .fuel := by
  induction fuel generalizing p block with
  | zero => rfl
  | succ fuel ih =>
    -- The next pointer is on the way to the circle, or in it.
    obtain ⟨p', ⟨block', hblock', hleads⟩, hrest⟩ : ∃ p', SpillLink s.dat key nhash p p' ∧
        Relation.ReflTransGen (SpillLink s.dat key nhash) p' q := by
      rcases Relation.ReflTransGen.cases_head hreach with rfl | hstep
      · exact Relation.TransGen.head'_iff.mp hcircle
      · exact hstep
    obtain rfl := Option.some.inj (hblock.symm.trans hblock')
    obtain ⟨next, hnext⟩ : ∃ next, spill_block s.dat p' = some next := by
      rcases Relation.ReflTransGen.cases_head hrest with rfl | ⟨_, ⟨b, hb, -⟩, -⟩
      · exact circle_block hcircle
      · exact ⟨b, hb⟩
    rw [fetch_loop_next (spill_block_header hblock) hleads hnext]
    exact ih hrest hnext

/-- The lookup gets to every block of the chain. -/
theorem OnChain.reached {bucket : Bytes} (h : BUCKET_HEADER ≤ bucket.length)
    (hon : OnChain s.dat key nhash bucket block) :
    BUCKET_HEADER ≤ block.length ∧ ∃ n, ∀ fuel,
      s.fetch_loop key nhash (fuel + n) bucket = s.fetch_loop key nhash fuel block := by
  induction hon with
  | bucket => exact ⟨h, 0, fun fuel => rfl⟩
  | spill _ hleads hnext ih =>
    obtain ⟨hlong, n, hn⟩ := ih
    refine ⟨spill_block_header hnext, n + 1, fun fuel => ?_⟩
    rw [Nat.add_comm n, ← Nat.add_assoc, hn, fetch_loop_next hlong hleads hnext]

theorem OnChain.head {dat next b : Bytes} {p : Nat} (hleads : Leads dat key nhash block p)
    (hnext : spill_block dat p = some next) (hon : OnChain dat key nhash next b) :
    OnChain dat key nhash block b := by
  induction hon with
  | bucket => exact .spill .bucket hleads hnext
  | spill _ hl hn ih => exact .spill ih hl hn

/-- A value that is returned is the answer of a block of the chain. -/
theorem fetch_loop_value {fuel : Nat} {val : Bytes}
    (h : s.fetch_loop key nhash fuel block = .ok (some val)) :
    ∃ b i, OnChain s.dat key nhash block b ∧ StopsAt s.dat key nhash b i ∧ Inside b i ∧
      s.answer (entry_at b i) = .ok (some val) := by
  induction fuel generalizing block with
  | zero => cases h
  | succ fuel ih =>
    by_cases hlong : BUCKET_HEADER ≤ block.length
    · rcases passes_or_stops s.dat key nhash block with hpass | ⟨i, hstop⟩
      · by_cases hlast : spill_of block = 0
        · rw [fetch_loop_ends hlong hpass hlast] at h
          cases h
        · have hleads : Leads s.dat key nhash block (spill_of block) := ⟨hpass, rfl, hlast⟩
          cases hspill : spill_block s.dat (spill_of block) with
          | none =>
            rw [fetch_loop_cut hlong hleads hspill] at h
            cases h
          | some next =>
            rw [fetch_loop_next hlong hleads hspill] at h
            obtain ⟨b, i, hon, hfound⟩ := ih h
            exact ⟨b, i, hon.head hleads hspill, hfound⟩
      · rw [fetch_loop_stops hlong hstop] at h
        split at h
        · next hin => exact ⟨block, i, .bucket, hstop, hin, h⟩
        · cases h
    · rw [fetch_loop_short hlong] at h
      cases h

end Loop

/-! ## Opening, and the bucket -/

section Open

open Checked

variable {xxh64 : Bytes → UInt64 → UInt64} {dat keyfile : Bytes} {key : Hash256}

/-- The shard of a key file with these fields. -/
def shard_of (dat keyfile : Bytes) (salt : UInt64) (block_size : Nat) : Shard :=
  let num_buckets := (keyfile.length - block_size) / block_size
  { dat, key := keyfile, salt, block_size, num_buckets, modulus := modulus_for num_buckets }

theorem read_header_iff {hdr : Bytes} :
    read_exact_at keyfile 0 64 = .ok hdr ↔ 64 ≤ keyfile.length ∧ hdr = keyfile.take 64 := by
  unfold read_exact_at readAt
  rw [ok_or_eq_ok, Nat.zero_add, List.drop_zero]
  split
  · next h => simp [h, eq_comm]
  · next h => simp [h]

/-- Where it does not overflow, `Shard::open` is the one of the other
    build. -/
theorem open_checked_agrees (dat : Bytes) (hkey : keyfile.length < 2 ^ 64) :
    Agrees (Shard.open_checked dat keyfile) (Shard.open dat keyfile) := by
  unfold Shard.open_checked Shard.open
  refine .lift_bind fun hdr _ => .lift_bind fun _ _ => .lift_bind fun _ _ => .lift_bind fun _ _ =>
    .sub_bind fun hle => ?_
  have hwrap : (keyfile.length + 2 ^ 64 - ofBE ((hdr.drop 44).take 2)) % 2 ^ 64 =
      keyfile.length - ofBE ((hdr.drop 44).take 2) := by
    rw [Nat.sub_add_comm hle, Nat.add_mod_right, Nat.mod_eq_of_lt (by omega)]
  rw [hwrap]
  exact agrees_pure _

/-- The fields of the header, within its 64 bytes. -/
theorem take_drop_take {b : Bytes} {off n : Nat} (h : off + n ≤ 64) :
    ((b.take 64).drop off).take n = (b.drop off).take n := by
  rw [List.drop_take, List.take_take, Nat.min_eq_left (by omega)]

/-- The checks of `Shard::open` in front of the subtraction. -/
theorem header_checks_iff {salt : UInt64} {block_size : Nat} :
    KeyHeader keyfile salt block_size ↔ ∃ hdr, read_exact_at keyfile 0 64 = .ok hdr ∧
      hdr.take 8 = KEY_MAGIC ∧ ofBE ((hdr.drop 26).take 2) = 32 ∧
      salt = UInt64.ofNat (ofBE ((hdr.drop 28).take 8)) ∧
      block_size = ofBE ((hdr.drop 44).take 2) ∧ block_size ≠ 0 := by
  have hmagic : (keyfile.take 64).take 8 = keyfile.take 8 := by
    rw [List.take_take, Nat.min_eq_left (by omega)]
  constructor
  · intro hk
    refine ⟨keyfile.take 64, read_header_iff.mpr ⟨hk.long, rfl⟩, ?_⟩
    rw [hmagic, take_drop_take (by omega), take_drop_take (by omega), take_drop_take (by omega)]
    exact ⟨hk.magic, hk.key_size, hk.salted, hk.blocks, hk.ne_zero⟩
  · intro hchecks
    obtain ⟨hdr, hread, hchecks⟩ := hchecks
    obtain ⟨hlong, rfl⟩ := read_header_iff.mp hread
    rw [hmagic, take_drop_take (by omega), take_drop_take (by omega),
      take_drop_take (by omega)] at hchecks
    obtain ⟨hm, hsize, hsalt, hblocks, hne⟩ := hchecks
    exact ⟨hlong, hm, hsize, hsalt, hblocks, hne⟩

theorem open_checked_overflows_iff : (Shard.open_checked dat keyfile).Overflows ↔
    ∃ salt block_size, KeyHeader keyfile salt block_size ∧ keyfile.length < block_size := by
  unfold Shard.open_checked
  simp only [overflows_lift_bind, overflows_sub_bind, not_overflows_pure, and_false, or_false,
    bail_if_eq_ok, not_not, Nat.not_le, header_checks_iff]
  constructor
  · intro hover
    obtain ⟨hdr, hread, _, hmagic, _, hsize, _, hne, hlt⟩ := hover
    exact ⟨_, _, ⟨hdr, hread, hmagic, hsize, rfl, rfl, hne⟩, hlt⟩
  · intro hbad
    obtain ⟨_, _, ⟨hdr, hread, hmagic, hsize, rfl, rfl, hne⟩, hlt⟩ := hbad
    exact ⟨hdr, hread, (), hmagic, (), hsize, (), hne, hlt⟩

theorem open_checked_ok_iff {s : Shard} : (Shard.open_checked dat keyfile).run = some (.ok s) ↔
    ∃ salt block_size, KeyHeader keyfile salt block_size ∧ block_size ≤ keyfile.length ∧
      s = shard_of dat keyfile salt block_size := by
  unfold Shard.open_checked
  simp only [bind_run_ok, run_lift, sub_run_ok, run_pure, Option.some.injEq,
    Except.ok.injEq, bail_if_eq_ok, not_not, header_checks_iff]
  constructor
  · intro hok
    obtain ⟨hdr, hread, _, hmagic, _, hsize, _, hne, _, ⟨hle, rfl⟩, rfl⟩ := hok
    exact ⟨_, _, ⟨hdr, hread, hmagic, hsize, rfl, rfl, hne⟩, hle, rfl⟩
  · intro hparts
    obtain ⟨_, _, ⟨hdr, hread, hmagic, hsize, rfl, rfl, hne⟩, hle, rfl⟩ := hparts
    exact ⟨hdr, hread, (), hmagic, (), hsize, (), hne, _, ⟨hle, rfl⟩, rfl⟩

/-- `n -= modulus / 2` stays a number. -/
theorem bucket_index_checked_run {s : Shard} (hm : s.modulus = modulus_for s.num_buckets)
    (nhash : Nat) : (s.bucket_index_checked nhash).run = some (.ok (s.bucket_index nhash)) := by
  obtain ⟨hle, hcase⟩ := modulus_for_spec s.num_buckets
  rw [← hm] at hle hcase
  unfold Shard.bucket_index_checked Shard.bucket_index bucket_of
  simp only
  split
  · next hge =>
    have hhalf : s.modulus / 2 ≤ nhash % s.modulus := by
      rcases hcase with hone | ⟨-, hhalf⟩
      · omega
      · omega
    exact run_sub hhalf
  · rfl

theorem bucket_of_zero (nhash : Nat) : bucket_of (modulus_for 0) 0 nhash = 0 := by
  have hmod : nhash % 1 = 0 := Nat.mod_one nhash
  simp [bucket_of, modulus_for, modulus_loop, hmod]

/-- A block ends within the file, or it is the first one. -/
theorem bucket_offset_lt {salt : UInt64} {block_size : Nat} (hkey : keyfile.length < 2 ^ 64)
    (hk : KeyHeader keyfile salt block_size) (nhash : Nat) :
    block_size * ((shard_of dat keyfile salt block_size).bucket_index nhash + 1) < 2 ^ 64 := by
  show block_size * (bucket_of (modulus_for ((keyfile.length - block_size) / block_size))
    ((keyfile.length - block_size) / block_size) nhash + 1) < 2 ^ 64
  by_cases hzero : (keyfile.length - block_size) / block_size = 0
  · have hwidth : ((keyfile.drop 44).take 2).length ≤ 2 := List.length_take_le 2 _
    have hlt := ofBE_lt ((keyfile.drop 44).take 2)
    have hpow : 256 ^ ((keyfile.drop 44).take 2).length ≤ 256 ^ 2 :=
      Nat.pow_le_pow_right (by omega) hwidth
    rw [← hk.blocks] at hlt
    rw [hzero, bucket_of_zero]
    omega
  · have hlt := bucket_of_lt (Nat.pos_of_ne_zero hzero) nhash
    calc _ ≤ block_size * ((keyfile.length - block_size) / block_size) :=
          Nat.mul_le_mul_left _ hlt
      _ ≤ keyfile.length - block_size := Nat.mul_div_le _ _
      _ < 2 ^ 64 := by omega

/-- Neither the bucket's number nor its offset overflows. The length of a
    file is a `u64`. -/
theorem fetch_checked_run {s : Shard} (hm : s.modulus = modulus_for s.num_buckets)
    (hoff : s.block_size * (s.bucket_index (nhash_of xxh64 s.salt key) + 1) < 2 ^ 64)
    (fuel : Nat) : (s.fetch_checked xxh64 fuel key).run = some (s.fetch xxh64 fuel key) := by
  unfold Shard.fetch_checked Shard.fetch
  rw [run_bind_of_ok (bucket_index_checked_run hm _), run_bind_of_ok (run_mul hoff)]
  exact run_lift_bind_lift _ _

theorem KeyHeader.unique {salt salt' : UInt64} {block_size block_size' : Nat}
    (hk : KeyHeader keyfile salt block_size) (hk' : KeyHeader keyfile salt' block_size') :
    salt = salt' ∧ block_size = block_size' :=
  ⟨hk.salted.trans hk'.salted.symm, hk.blocks.trans hk'.blocks.symm⟩

theorem fetch_checked_shard_of {salt : UInt64} {block_size : Nat} (hkey : keyfile.length < 2 ^ 64)
    (hk : KeyHeader keyfile salt block_size) (fuel : Nat) :
    ((shard_of dat keyfile salt block_size).fetch_checked xxh64 fuel key).run =
      some ((shard_of dat keyfile salt block_size).fetch xxh64 fuel key) :=
  fetch_checked_run rfl (bucket_offset_lt hkey hk _) fuel

/-- The lookup, from the block of its bucket on. -/
theorem fetch_bucket {s : Shard} {nhash : Nat} {block : Bytes} (hkey : keyfile.length < 2 ^ 64)
    (hopen : (Shard.open_checked dat keyfile).run = some (.ok s))
    (hb : BucketOf xxh64 keyfile key nhash block) :
    s.dat = dat ∧ ∀ fuel, (s.fetch_checked xxh64 fuel key).run =
      some (s.fetch_loop key nhash fuel block) := by
  obtain ⟨salt, block_size, hk, -, rfl⟩ := open_checked_ok_iff.mp hopen
  obtain ⟨salt', block_size', hk', rfl, hread⟩ := hb
  obtain ⟨rfl, rfl⟩ := hk.unique hk'
  refine ⟨rfl, fun fuel => ?_⟩
  rw [fetch_checked_shard_of hkey hk]
  congr 1
  exact bind_of_ok (ok_or_eq_ok.mpr hread) _

/-- The block of the bucket can be read, or that is an error. -/
theorem bucket_or_error (xxh64 : Bytes → UInt64 → UInt64) (key : Hash256) {s : Shard}
    (hkey : keyfile.length < 2 ^ 64)
    (hopen : (Shard.open_checked dat keyfile).run = some (.ok s)) :
    (∃ nhash block, BucketOf xxh64 keyfile key nhash block) ∨
      ∀ fuel, (s.fetch_checked xxh64 fuel key).run =
        some (.error (.bail "failed to fill whole buffer")) := by
  obtain ⟨salt, block_size, hk, -, rfl⟩ := open_checked_ok_iff.mp hopen
  let n := (keyfile.length - block_size) / block_size
  let nhash := nhash_of xxh64 salt key
  cases hread : readAt keyfile (block_size * (bucket_of (modulus_for n) n nhash + 1)) block_size with
  | some block => exact .inl ⟨nhash, block, salt, block_size, hk, rfl, hread⟩
  | none =>
    refine .inr fun fuel => ?_
    rw [fetch_checked_shard_of hkey hk]
    show some (ok_or (readAt keyfile (block_size * (bucket_of (modulus_for n) n nhash + 1))
      block_size) _ >>= _) = _
    rw [hread]
    rfl

/-! ## Exactly the damage that leads a lookup astray -/

theorem Undamaged.open (hu : Undamaged xxh64 dat keyfile key) :
    ¬ (Shard.open_checked dat keyfile).Overflows := by
  rw [open_checked_overflows_iff]
  intro hover
  obtain ⟨salt, block_size, hk, hlt⟩ := hover
  exact absurd (hu.length salt block_size hk) (Nat.not_le.mpr hlt)

theorem Undamaged.fetch (hu : Undamaged xxh64 dat keyfile key) (hkey : keyfile.length < 2 ^ 64)
    {s : Shard} (hopen : (Shard.open_checked dat keyfile).run = some (.ok s)) :
    ∃ fuel r, (s.fetch_checked xxh64 fuel key).run = some r ∧
      ErrorsIn (fun e => e ≠ .fuel ∧ e ≠ .panic) r := by
  rcases bucket_or_error xxh64 key hkey hopen with ⟨nhash, block, hb⟩ | herr
  · obtain ⟨rfl, hrun⟩ := fetch_bucket hkey hopen hb
    obtain ⟨hlong, hinside⟩ := hu.bucket nhash block hb
    obtain ⟨fuel, hfuel⟩ := fetch_loop_terminates hlong hinside fun p hleads next hnext =>
      spill_terminates ((acc_iff_no_circle (link_finite _ _ _)).mpr
        (hu.chain nhash block p hb hleads)) next hnext
    exact ⟨fuel, _, hrun fuel, hfuel⟩
  · exact ⟨0, _, herr 0, errorsIn_error.mpr ⟨by simp, by simp⟩⟩

theorem answer_ok_iff {s : Shard} {e : PlacedEntry} {val : Bytes} :
    s.answer e = .ok (some val) ↔ ∃ head, readAt s.dat e.offset REC_HEADER = some head ∧
      readAt s.dat (e.offset + REC_HEADER) e.size = some val := by
  unfold Shard.answer read_exact_at
  simp only [bind_eq_ok, ok_or_eq_ok, pure_eq_ok, Option.some.injEq]
  constructor
  · intro hok
    obtain ⟨head, hhead, _, hval, rfl⟩ := hok
    exact ⟨head, hhead, hval⟩
  · intro hreads
    obtain ⟨head, hhead, hval⟩ := hreads
    exact ⟨head, hhead, val, hval, rfl⟩

/-- Where a value can be read, so can what stands in front of it. -/
theorem readAt_head {file val : Bytes} {off n m : Nat} (h : readAt file (off + n) m = some val) :
    ∃ head, readAt file off n = some head := by
  unfold readAt at *
  split at h
  · next hle => exact ⟨_, if_pos (by omega)⟩
  · cases h

/-- A record whose size field, key and value are read one by one. -/
theorem recorded_of_reads {off : Nat} {head val : Bytes}
    (hsize : readAt dat off 6 = some (toBE 6 val.length))
    (hhead : readAt dat off REC_HEADER = some head) (hhk : (head.drop 6).take 32 = key.bytes)
    (hval : readAt dat (off + REC_HEADER) val.length = some val) :
    HasAt dat off (toBE 6 val.length ++ key.bytes ++ val) := by
  have hfront : head = toBE 6 val.length ++ key.bytes := by
    have hlen : head.length = REC_HEADER := readAt_length hhead
    have hsix : head.take 6 = toBE 6 val.length := by
      rw [readAt_take hhead (by decide), ← readAt_take hsize (Nat.le_refl 6)]
      exact List.take_of_length_le (by rw [toBE_length])
    have hkey32 : (head.drop 6).take 32 = head.drop 6 :=
      List.take_of_length_le (by rw [List.length_drop, hlen]; decide)
    rw [← hsix, ← hhk, hkey32, List.take_append_drop]
  have hat := HasAt.of_readAt hhead
  rw [hfront] at hat
  have hlen : (toBE 6 val.length ++ key.bytes).length = REC_HEADER := by
    simp [key.length_eq, REC_HEADER]
  exact hat.join (by rw [hlen]; exact HasAt.of_readAt hval)

theorem Undamaged.value (hu : Undamaged xxh64 dat keyfile key) (hkey : keyfile.length < 2 ^ 64)
    {s : Shard} (hopen : (Shard.open_checked dat keyfile).run = some (.ok s)) {fuel : Nat}
    {val : Bytes} (hrun : (s.fetch_checked xxh64 fuel key).run = some (.ok (some val))) :
    Recorded dat key val := by
  rcases bucket_or_error xxh64 key hkey hopen with ⟨nhash, bucket, hb⟩ | herr
  · obtain ⟨rfl, hfetch⟩ := fetch_bucket hkey hopen hb
    obtain ⟨block, i, hon, hstop, hin, hanswer⟩ :=
      fetch_loop_value (Option.some.inj ((hfetch fuel).symm.trans hrun))
    obtain ⟨head, hhead, hval⟩ := answer_ok_iff.mp hanswer
    have hsize : val.length = (entry_at block i).size := readAt_length hval
    have hkeyed := (hstop.stop.resolve_left (not_not.mpr hin)).2 head hhead
    rcases hu.size nhash bucket block i val hb hon hstop hval with hfield | ⟨off, -, hat⟩
    · rw [← hsize] at hfield hval
      exact ⟨_, recorded_of_reads hfield hhead hkeyed hval⟩
    · rw [← hsize] at hat
      exact ⟨off, hat⟩
  · rw [herr fuel] at hrun
    cases hrun

theorem FailsLoudly.length (hl : FailsLoudly xxh64 dat keyfile key) (salt : UInt64)
    (block_size : Nat) (hk : KeyHeader keyfile salt block_size) :
    block_size ≤ keyfile.length := by
  by_contra hlt
  exact hl.open (open_checked_overflows_iff.mpr ⟨salt, block_size, hk, Nat.not_le.mp hlt⟩)

/-- A store that does not fail to open has its shard. -/
theorem FailsLoudly.shard (hl : FailsLoudly xxh64 dat keyfile key) {nhash : Nat} {block : Bytes}
    (hb : BucketOf xxh64 keyfile key nhash block) :
    ∃ s, (Shard.open_checked dat keyfile).run = some (.ok s) := by
  obtain ⟨salt, block_size, hk, -, -⟩ := hb
  exact ⟨_, open_checked_ok_iff.mpr ⟨salt, block_size, hk, hl.length salt block_size hk, rfl⟩⟩

/-- With enough fuel the lookup ends from its bucket on. -/
theorem FailsLoudly.fetch_loop (hl : FailsLoudly xxh64 dat keyfile key)
    (hkey : keyfile.length < 2 ^ 64) {nhash : Nat} {block : Bytes}
    (hb : BucketOf xxh64 keyfile key nhash block) :
    ∃ s, s.dat = dat ∧ (Shard.open_checked dat keyfile).run = some (.ok s) ∧
      ∃ fuel, ErrorsIn (fun e => e ≠ .fuel ∧ e ≠ .panic) (s.fetch_loop key nhash fuel block) := by
  obtain ⟨s, hopen⟩ := hl.shard hb
  obtain ⟨hdat, hfetch⟩ := fetch_bucket hkey hopen hb
  obtain ⟨fuel, r, hrun, herrors⟩ := hl.fetch s hopen
  refine ⟨s, hdat, hopen, fuel, ?_⟩
  rwa [← Option.some.inj ((hfetch fuel).symm.trans hrun)] at herrors

theorem FailsLoudly.bucket (hl : FailsLoudly xxh64 dat keyfile key)
    (hkey : keyfile.length < 2 ^ 64) {nhash : Nat} {block : Bytes}
    (hb : BucketOf xxh64 keyfile key nhash block) :
    BUCKET_HEADER ≤ block.length ∧ ∀ i, StopsAt dat key nhash block i → Inside block i := by
  obtain ⟨s, rfl, -, fuel, herrors⟩ := hl.fetch_loop hkey hb
  cases fuel with
  | zero => exact absurd rfl (herrors .fuel rfl).1
  | succ fuel =>
    have hlong : BUCKET_HEADER ≤ block.length := by
      by_contra hshort
      exact (herrors .panic (fetch_loop_short hshort fuel)).2 rfl
    refine ⟨hlong, fun i hstop => ?_⟩
    by_contra hout
    have hpanic := fetch_loop_stops hlong hstop fuel
    rw [if_neg hout] at hpanic
    exact (herrors .panic hpanic).2 rfl

theorem FailsLoudly.chain (hl : FailsLoudly xxh64 dat keyfile key)
    (hkey : keyfile.length < 2 ^ 64) {nhash : Nat} {block : Bytes}
    (hb : BucketOf xxh64 keyfile key nhash block) {p q : Nat}
    (hleads : Leads dat key nhash block p)
    (hreach : Relation.ReflTransGen (SpillLink dat key nhash) p q) :
    ¬ Relation.TransGen (SpillLink dat key nhash) q q := by
  intro hcircle
  have hlong := (hl.bucket hkey hb).1
  obtain ⟨s, rfl, -, fuel, herrors⟩ := hl.fetch_loop hkey hb
  cases fuel with
  | zero => exact absurd rfl (herrors .fuel rfl).1
  | succ fuel =>
    obtain ⟨next, hnext⟩ : ∃ next, spill_block s.dat p = some next := by
      rcases Relation.ReflTransGen.cases_head hreach with rfl | ⟨_, ⟨b, hb, -⟩, -⟩
      · exact circle_block hcircle
      · exact ⟨b, hb⟩
    have hendless := spill_endless hreach hcircle hnext fuel
    rw [fetch_loop_next hlong hleads hnext, hendless] at herrors
    exact (herrors .fuel rfl).1 rfl

theorem FailsLoudly.size (hl : FailsLoudly xxh64 dat keyfile key)
    (hkey : keyfile.length < 2 ^ 64) {nhash i : Nat} {bucket block val : Bytes}
    (hb : BucketOf xxh64 keyfile key nhash bucket) (hon : OnChain dat key nhash bucket block)
    (hstop : StopsAt dat key nhash block i)
    (hval : readAt dat ((entry_at block i).offset + REC_HEADER) (entry_at block i).size = some val) :
    readAt dat (entry_at block i).offset 6 = some (toBE 6 (entry_at block i).size) ∨
      ∃ off ≠ (entry_at block i).offset,
        HasAt dat off (toBE 6 (entry_at block i).size ++ key.bytes ++ val) := by
  obtain ⟨hlong, hinside⟩ := hl.bucket hkey hb
  obtain ⟨s, hopen⟩ := hl.shard hb
  obtain ⟨rfl, hfetch⟩ := fetch_bucket hkey hopen hb
  obtain ⟨hlong', n, hn⟩ := hon.reached hlong
  have hin : Inside block i := by
    cases hon with
    | bucket => exact hinside i hstop
    | spill _ _ hnext => exact spill_block_inside hnext hstop.lt
  obtain ⟨head, hhead⟩ := readAt_head hval
  -- The lookup gets to the block, and returns the value.
  have hrun : (s.fetch_checked xxh64 (1 + n) key).run = some (.ok (some val)) := by
    rw [hfetch, hn, fetch_loop_stops hlong' hstop, if_pos hin]
    exact congrArg some (answer_ok_iff.mpr ⟨head, hhead, hval⟩)
  obtain ⟨off, hat⟩ := hl.value s _ val hopen hrun
  rw [readAt_length hval] at hat
  by_cases hoff : off = (entry_at block i).offset
  · subst hoff
    refine .inl ?_
    have hfield := hat.front.front.readAt
    rwa [toBE_length] at hfield
  · exact .inr ⟨off, hoff, hat⟩

/-- On every store, opening it and looking a key up fails loudly exactly
    when the files lead that lookup not astray. -/
theorem fails_loudly_iff (xxh64 : Bytes → UInt64 → UInt64) (dat keyfile : Bytes) (key : Hash256)
    (hkey : keyfile.length < 2 ^ 64) :
    FailsLoudly xxh64 dat keyfile key ↔ Undamaged xxh64 dat keyfile key := by
  constructor
  · intro hl
    exact ⟨hl.length, fun _ _ hb => hl.bucket hkey hb,
      fun _ _ _ hb hleads _ hreach => hl.chain hkey hb hleads hreach,
      fun _ _ _ _ _ hb hon hstop hval => hl.size hkey hb hon hstop hval⟩
  · intro hu
    exact ⟨hu.open, fun s hopen => hu.fetch hkey hopen,
      fun s _ _ hopen hrun => hu.value hkey hopen hrun⟩

end Open

/-! ## A spill record that names itself -/

/-- One byte, and a bucket without entries at offset 1 that names offset 1
    as the next. -/
def circle_dat : Bytes := [0] ++ bucket_bytes [] 1

/-- A key file of one bucket, without entries, that names that record. -/
def circle_key : Bytes :=
  KEY_MAGIC ++ List.replicate 18 0 ++ toBE 2 32 ++ List.replicate 16 0 ++ toBE 2 64 ++
    List.replicate 18 0 ++ write_bucket_into 64 [] 1

theorem circle_bucket : BucketOf Xxh64.digest circle_key ZERO_HASH (nhash_of Xxh64.digest 0 ZERO_HASH)
    (write_bucket_into 64 [] 1) := by
  refine ⟨0, 64, ⟨by decide +kernel, by decide +kernel, by decide +kernel, by decide +kernel,
    by decide +kernel, by decide +kernel⟩, rfl, ?_⟩
  have hlt : bucket_of (modulus_for 1) 1 (nhash_of Xxh64.digest 0 ZERO_HASH) < 1 :=
    bucket_of_lt Nat.one_pos _
  show readAt circle_key
    (64 * (bucket_of (modulus_for 1) 1 (nhash_of Xxh64.digest 0 ZERO_HASH) + 1)) 64 = _
  rw [Nat.lt_one_iff.mp hlt]
  decide +kernel

theorem circle_leads {block : Bytes} (hcount : count_of block = 0) (hspill : spill_of block = 1) :
    Leads circle_dat ZERO_HASH (nhash_of Xxh64.digest 0 ZERO_HASH) block 1 where
  passes i hi := by
    rw [hcount] at hi
    exact absurd hi (Nat.not_lt_zero i)
  names := hspill
  ne_zero := by decide +kernel

/-- A lookup in this store never ends. -/
theorem circle_not_loud : ¬ FailsLoudly Xxh64.digest circle_dat circle_key ZERO_HASH := by
  intro hl
  have hlink : SpillLink circle_dat ZERO_HASH (nhash_of Xxh64.digest 0 ZERO_HASH) 1 1 :=
    ⟨bucket_bytes [] 1, by decide +kernel, circle_leads (by decide +kernel) (by decide +kernel)⟩
  exact hl.chain (by decide +kernel) circle_bucket
    (circle_leads (by decide +kernel) (by decide +kernel)) .refl (.single hlink)

theorem fails_loudly_iff_circle :
    FailsLoudly Xxh64.digest circle_dat circle_key ZERO_HASH ↔
      Undamaged Xxh64.digest circle_dat circle_key ZERO_HASH :=
  fails_loudly_iff Xxh64.digest circle_dat circle_key ZERO_HASH (by decide +kernel)

end LedgerArchive
