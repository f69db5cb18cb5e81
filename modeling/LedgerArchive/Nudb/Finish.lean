import LedgerArchive.Lib.Steps
import Mathlib.Logic.Function.Basic

/-! # Moving a finished store into place (`NuDbSink::finish`)

    `finish` writes both files under temporary names and then swaps them
    in: the old key is moved aside, the data file and the key file are
    renamed over the old ones, and the old key is removed. Every operation
    on the file system can fail without effect, and the process can stop
    after any of them.

    The swap is sound unless one of two renames fails: the data file's when
    the old key cannot be put back, and the key file's, after which the old
    key is put back beside the new data (`finish_sound_iff`). -/

namespace LedgerArchive

open Lib

/-! ## The file system -/

inductive FileName where
  | dat | key | dat_tmp | key_tmp | key_bak
  deriving DecidableEq

/-- Which store a file belongs to. A file of the new store is `unfinished`
    until all of it is written. -/
inductive Version where
  | old | new | unfinished
  deriving DecidableEq

abbrev Files := FileName → Option Version

inductive FileOp where
  | create (name : FileName)
  /-- Write the rest of an open file and flush it. -/
  | write (name : FileName)
  | rename (source target : FileName)
  | remove (name : FileName)
  deriving DecidableEq

/-- What an operation does when the system lets it. -/
def FileOp.exec : FileOp → Files → Option Files
  | create name, s => some (Function.update s name (some .unfinished))
  | write name, s => some (Function.update s name (some .new))
  | rename source target, s =>
    match s source with
    | none => none
    | some v => some (Function.update (Function.update s source none) target (some v))
  | remove name, s =>
    match s name with
    | none => none
    | some _ => some (Function.update s name none)

/-- `path.exists()`. -/
def Files.present (name : FileName) (s : Files) : Bool := (s name).isSome

/-! ## The program -/

/-- `finish` and its parts return the operation that failed. -/
abbrev FileProg := Prog Files FileOp (Except FileOp Unit)

namespace NuDbSink

/-- `if let Err(e) = swapped`: put the old key back if its name is free. -/
def put_back (had_old_key : Bool) (e : FileOp) : FileProg :=
  .look (fun s => had_old_key && !s.present .key) fun put =>
    if put then .step (.rename .key_bak .key) fun _ => .ret (.error e) else .ret (.error e)

/-- The two renames, and what follows their success or failure. -/
def swap (had_old_key : Bool) : FileProg :=
  .step (.rename .dat_tmp .dat) fun ok =>
    if ok then
      .step (.rename .key_tmp .key) fun ok =>
        if ok then
          if had_old_key then .step (.remove .key_bak) fun _ => .ret (.ok ()) else .ret (.ok ())
        else put_back had_old_key (.rename .key_tmp .key)
    else put_back had_old_key (.rename .dat_tmp .dat)

/-- The old key is moved aside before the swap. -/
def move_into_place : FileProg :=
  .look (Files.present .key) fun had_old_key =>
    if had_old_key then
      .step (.rename .key .key_bak) fun ok =>
        if ok then swap true else .ret (.error (.rename .key .key_bak))
    else swap false

/-- The closure of `finish`. -/
def write_key_and_swap : FileProg :=
  .step (.create .key_tmp) fun ok =>
    if ok then
      .step (.write .key_tmp) fun ok =>
        if ok then move_into_place else .ret (.error (.write .key_tmp))
    else .ret (.error (.create .key_tmp))

/-- `Drop`: a sink that is not finished removes its temporary file. -/
def drop_sink : Except FileOp Unit → FileProg
  | .ok () => .ret (.ok ())
  | .error e => .step (.remove .dat_tmp) fun _ => .ret (.error e)

/-- After the closure: an error removes the new key file. -/
def clean_up : Except FileOp Unit → FileProg
  | .ok () => drop_sink (.ok ())
  | .error e => .step (.remove .key_tmp) fun _ => drop_sink (.error e)

def finish_files : FileProg :=
  .step (.write .dat_tmp) fun ok =>
    if ok then write_key_and_swap.bind clean_up else drop_sink (.error (.write .dat_tmp))

end NuDbSink

/-! ## Soundness -/

/-- An existing store, and a sink that is about to finish. The other two
    names may be taken by files left from earlier. -/
def existing_store (key_tmp key_bak : Option Version) : Files
  | .dat => some .old
  | .key => some .old
  | .dat_tmp => some .unfinished
  | .key_tmp => key_tmp
  | .key_bak => key_bak

/-- The old store stands under its own names. -/
def OldInPlace (s : Files) : Prop := s .dat = some .old ∧ s .key = some .old

/-- No new data beside the old key, and the old store in place whenever
    `finish` has returned an error. -/
def Sound (s : Files) (result : Option (Except FileOp Unit)) : Prop :=
  ¬ (s .dat = some .new ∧ s .key = some .old) ∧ ∀ e, result = some (.error e) → OldInPlace s

instance (s : Files) : Decidable (OldInPlace s) := inferInstanceAs (Decidable (_ ∧ _))

/-- The swap is reached, and either the data file cannot be renamed and the
    old key not put back, or only the key file cannot be renamed. The steps
    are numbered from 0. -/
structure SwapBreaks (fails : Nat → FileOp → Bool) : Prop where
  reached : fails 0 (.write .dat_tmp) = false ∧ fails 1 (.create .key_tmp) = false ∧
    fails 2 (.write .key_tmp) = false ∧ fails 3 (.rename .key .key_bak) = false
  broken : (fails 4 (.rename .dat_tmp .dat) = true ∧ fails 5 (.rename .key_bak .key) = true) ∨
    (fails 4 (.rename .dat_tmp .dat) = false ∧ fails 5 (.rename .key_tmp .key) = true)

variable {fails : Nat → FileOp → Bool} {now : FileOp → Bool} {s : Files}

open NuDbSink Prog

/-- While the old store is in place nothing is wrong, also with an error. -/
theorem OldInPlace.sound (h : OldInPlace s) (result : Option (Except FileOp Unit)) :
    Sound s result := by
  refine ⟨?_, fun _ _ => h⟩
  rw [h.1]
  simp

theorem not_mixed_of_dat (h : s .dat ≠ some .new) : Sound s none :=
  ⟨fun hm => h hm.1, fun _ he => nomatch he⟩

theorem not_mixed_of_key (h : s .key ≠ some .old) : Sound s none :=
  ⟨fun hm => h hm.2, fun _ he => nomatch he⟩

/-! ## Cleaning up -/

theorem outcome_remove {name : FileName} {s' : Files}
    (h : outcome FileOp.exec now (.remove name) s = some s') :
    s' = Function.update s name none := by
  unfold outcome FileOp.exec at h
  grind

/-- Removing a temporary file leaves the store as it is. -/
theorem always_remove {name : FileName} {p : FileProg} (hd : name ≠ .dat) (hk : name ≠ .key)
    (hp : ∀ fails t, Always FileOp.exec fails Sound p t ↔ OldInPlace t) :
    Always FileOp.exec fails Sound (.step (.remove name) fun _ => p) s ↔ OldInPlace s := by
  have hkeep : ∀ s', outcome FileOp.exec (fails 0) (.remove name) s = some s' →
      (OldInPlace s' ↔ OldInPlace s) := by
    intro s' h
    unfold OldInPlace
    rw [outcome_remove h, Function.update_of_ne hd.symm, Function.update_of_ne hk.symm]
  cases h : outcome FileOp.exec (fails 0) (.remove name) s with
  | some s' =>
    rw [always_step_ok h, hp, hkeep s' h]
    exact ⟨fun hs => hs.2, fun hs => ⟨hs.sound none, hs⟩⟩
  | none =>
    rw [always_step_err h, hp]
    exact ⟨fun hs => hs.2, fun hs => ⟨hs.sound none, hs⟩⟩

theorem always_drop_sink (e : FileOp) (t : Files) :
    Always FileOp.exec fails Sound (drop_sink (.error e)) t ↔ OldInPlace t := by
  refine always_remove (by decide) (by decide) fun fails t => ?_
  rw [always_ret]
  exact ⟨fun h => h.2 e rfl, fun h => h.sound _⟩

/-- What must hold behind the closure: an error leaves the old store. -/
def AfterClosure (t : Files) : Except FileOp Unit → Prop
  | .ok () => Sound t (some (.ok ()))
  | .error _ => OldInPlace t

/-- What is done after the closure changes nothing for better or worse. -/
theorem always_clean_up (p : FileProg) :
    Always FileOp.exec fails Sound (p.bind clean_up) s ↔ Always FileOp.exec fails Sound p s := by
  rw [@always_bind _ _ _ _ _ _ _ _ _ _ AfterClosure fun fails a t => ?_]
  · refine always_congr fun t r => ?_
    match r with
    | none => exact Iff.rfl
    | some (.ok ()) => exact Iff.rfl
    | some (.error e) => exact ⟨fun h => h.sound _, fun h => h.2 e rfl⟩
  · match a with
    | .ok () => exact always_ret
    | .error e => exact always_remove (by decide) (by decide) fun _ => always_drop_sink e

/-! ## The swap -/

/-- Both files are written and the old key is out of the way. -/
structure ReadyToSwap (s : Files) : Prop where
  dat : s .dat = some .old
  key : s .key = none
  dat_tmp : s .dat_tmp = some .new
  key_tmp : s .key_tmp = some .new
  key_bak : s .key_bak = some .old

theorem outcome_rename {source target : FileName} {v : Version}
    (hf : now (.rename source target) = false) (hs : s source = some v) :
    outcome FileOp.exec now (.rename source target) s =
      some (Function.update (Function.update s source none) target (some v)) := by
  rw [outcome_ok hf]
  simp only [FileOp.exec, hs]

/-- The data file cannot be renamed: the old key must be put back. -/
theorem ReadyToSwap.always_dat_error (h : ReadyToSwap s) (e : FileOp) :
    Always FileOp.exec fails Sound (put_back true e) s ↔
      fails 0 (.rename .key_bak .key) = false := by
  have hlook : (true && !s.present .key) = true := by
    simp [Files.present, h.key]
  unfold put_back
  rw [always_look, hlook, if_pos rfl]
  cases hf : fails 0 (.rename .key_bak .key) with
  | true =>
    rw [always_step_err (outcome_fail hf), always_ret]
    constructor
    · intro hs
      -- The error is returned with no key in place.
      have hkey := (hs.2.2 e rfl).2
      rw [h.key] at hkey
      cases hkey
    · intro hc
      cases hc
  | false =>
    rw [always_step_ok (outcome_rename hf h.key_bak), always_ret]
    refine ⟨fun _ => rfl, fun _ => ⟨not_mixed_of_dat (by rw [h.dat]; decide), ?_⟩⟩
    apply OldInPlace.sound
    simp [OldInPlace, h.dat]

/-- The data file is renamed and the key file is not: whether or not the
    old key is put back, the old store is gone. -/
theorem ReadyToSwap.always_key_error (h : ReadyToSwap s) (e : FileOp) :
    ¬ Always FileOp.exec fails Sound (put_back true e)
      (Function.update (Function.update s .dat_tmp none) .dat (some .new)) := by
  intro ha
  have hlook : (true && !(Files.present .key
      (Function.update (Function.update s .dat_tmp none) .dat (some .new)))) = true := by
    simp [Files.present, h.key]
  unfold put_back at ha
  rw [always_look, hlook, if_pos rfl] at ha
  cases hf : fails 0 (.rename .key_bak .key) with
  | true =>
    rw [always_step_err (outcome_fail hf), always_ret] at ha
    have hkey := (ha.2.2 e rfl).2
    simp [h.key] at hkey
  | false =>
    -- Put back, the old key stands beside the new data.
    rw [always_step_ok (outcome_rename hf (v := .old) (by simp [h.key_bak])), always_ret] at ha
    exact ha.2.1 ⟨by simp, by simp⟩

theorem ReadyToSwap.always_swap (h : ReadyToSwap s) :
    Always FileOp.exec fails Sound (swap true) s ↔
      ¬ ((fails 0 (.rename .dat_tmp .dat) = true ∧ fails 1 (.rename .key_bak .key) = true) ∨
        (fails 0 (.rename .dat_tmp .dat) = false ∧ fails 1 (.rename .key_tmp .key) = true)) := by
  have hbefore : Sound s none := not_mixed_of_dat (by rw [h.dat]; decide)
  unfold swap
  cases hd : fails 0 (.rename .dat_tmp .dat) with
  | true =>
    rw [always_step_err (outcome_fail hd), if_neg (by decide), h.always_dat_error]
    simp [hbefore]
  | false =>
    have hmid : Sound (Function.update (Function.update s .dat_tmp none) .dat (some .new)) none :=
      not_mixed_of_key (by simp [h.key])
    rw [always_step_ok (outcome_rename hd h.dat_tmp), if_pos rfl]
    cases hk : fails 1 (.rename .key_tmp .key) with
    | true =>
      rw [always_step_err (outcome_fail hk), if_neg (by decide)]
      simp [h.always_key_error]
    | false =>
      rw [always_step_ok (outcome_rename hk (v := .new) (by simp [h.key_tmp])), if_pos rfl,
        if_pos rfl]
      -- The new store is in place; removing the old key may fail.
      have hdone : ∀ {fails} {t : Files}, t .key = some .new →
          Always FileOp.exec fails Sound (.step (.remove .key_bak) fun _ => .ret (.ok ())) t := by
        intro fails t ht
        have hsound : ∀ {u : Files} {r}, u .key = some .new → (∀ e, r ≠ some (.error e)) →
            Sound u r := by
          intro u r hu hr
          refine ⟨fun hm => ?_, fun e he => absurd he (hr e)⟩
          rw [hu] at hm
          exact absurd hm.2 (by decide)
        rw [always_step]
        refine ⟨hsound ht (by simp), ?_⟩
        split
        · next s' hs' =>
          rw [always_ret]
          refine hsound ?_ (by simp)
          rw [outcome_remove hs']
          simpa using ht
        · rw [always_ret]
          exact hsound ht (by simp)
      simp [hbefore, hmid, hdone]

/-! ## The whole of `finish` -/

theorem outcome_create {name : FileName} (hf : now (.create name) = false) :
    outcome FileOp.exec now (.create name) s =
      some (Function.update s name (some .unfinished)) :=
  outcome_ok hf

theorem outcome_write {name : FileName} (hf : now (.write name) = false) :
    outcome FileOp.exec now (.write name) s = some (Function.update s name (some .new)) :=
  outcome_ok hf

/-- An operation that fails before the swap is harmless. -/
theorem always_early_error {o : FileOp} (hs : OldInPlace s) (hf : fails 0 o = true)
    {k : Bool → FileProg} (hk : k false = .ret (.error o)) :
    Always FileOp.exec fails Sound (.step o k) s := by
  rw [always_step_err (outcome_fail hf), hk, always_ret]
  exact ⟨hs.sound _, hs.sound _⟩

/-- The closure, from a finished data file on. -/
theorem always_write_key_and_swap (hs : OldInPlace s) (ht : s .dat_tmp = some .new) :
    Always FileOp.exec fails Sound write_key_and_swap s ↔
      (fails 0 (.create .key_tmp) = false → fails 1 (.write .key_tmp) = false →
        fails 2 (.rename .key .key_bak) = false →
        ¬ ((fails 3 (.rename .dat_tmp .dat) = true ∧ fails 4 (.rename .key_bak .key) = true) ∨
          (fails 3 (.rename .dat_tmp .dat) = false ∧ fails 4 (.rename .key_tmp .key) = true))) := by
  unfold write_key_and_swap
  cases hc : fails 0 (.create .key_tmp) with
  | true => simp [always_early_error hs hc]
  | false =>
    rw [always_step_ok (outcome_create hc), if_pos rfl]
    have hs1 : OldInPlace (Function.update s .key_tmp (some .unfinished)) := by
      simpa [OldInPlace] using hs
    cases hw : fails 1 (.write .key_tmp) with
    | true =>
      have hearly := @always_early_error (later fails) _ _ hs1 hw
      simp [hearly, hs.sound]
    | false =>
      rw [always_step_ok (outcome_write hw), if_pos rfl]
      have hs2 : OldInPlace (Function.update (Function.update s .key_tmp (some .unfinished))
          .key_tmp (some .new)) := by
        simpa [OldInPlace] using hs
      have hpresent : Files.present .key (Function.update (Function.update s .key_tmp
          (some .unfinished)) .key_tmp (some .new)) = true := by
        simp [Files.present, hs.2]
      -- Up to here the old store is in place; moving its key away ends that.
      unfold move_into_place
      rw [always_look, hpresent, if_pos rfl]
      cases hm : fails 2 (.rename .key .key_bak) with
      | true =>
        exact iff_of_true ⟨hs.sound _, hs1.sound _, always_early_error hs2 hm rfl⟩
          fun _ _ hc => nomatch hc
      | false =>
        rw [always_step_ok (outcome_rename hm (v := .old) (by simpa using hs.2)), if_pos rfl]
        have hready : ReadyToSwap (Function.update (Function.update (Function.update
            (Function.update s .key_tmp (some .unfinished)) .key_tmp (some .new)) .key none)
            .key_bak (some .old)) :=
          ⟨by simpa using hs.1, by simp, by simpa using ht, by simp, by simp⟩
        rw [hready.always_swap]
        simp only [hs.sound, hs1.sound, hs2.sound, true_and, forall_const]
        exact Iff.rfl

/-- From an existing store on, wherever it is stopped, `finish` never shows
    the new data beside the old key and returns an error only with the old
    store in place, exactly unless the swap breaks. -/
theorem finish_sound_iff (fails : Nat → FileOp → Bool) (key_tmp key_bak : Option Version) :
    (∀ n, Sound (run FileOp.exec fails finish_files n (existing_store key_tmp key_bak)).1
      (run FileOp.exec fails finish_files n (existing_store key_tmp key_bak)).2) ↔
    ¬ SwapBreaks fails := by
  show Always FileOp.exec fails Sound finish_files (existing_store key_tmp key_bak) ↔ _
  have hs : OldInPlace (existing_store key_tmp key_bak) := ⟨rfl, rfl⟩
  unfold finish_files
  cases hw : fails 0 (.write .dat_tmp) with
  | true =>
    rw [always_step_err (outcome_fail hw), if_neg (by decide), always_drop_sink]
    refine iff_of_true ⟨hs.sound _, hs⟩ fun hb => ?_
    rw [hb.reached.1] at hw
    cases hw
  | false =>
    have hs1 : OldInPlace (Function.update (existing_store key_tmp key_bak) .dat_tmp
        (some .new)) := by
      simpa [OldInPlace] using hs
    -- The data file is finished, and the rest is the closure.
    rw [always_step_ok (outcome_write hw), if_pos rfl, always_clean_up,
      always_write_key_and_swap hs1 (by simp)]
    constructor
    · intro h hb
      exact h.2 hb.reached.2.1 hb.reached.2.2.1 hb.reached.2.2.2 hb.broken
    · intro h
      exact ⟨hs.sound _, fun hc hk hm hb => h ⟨⟨hw, hc, hk, hm⟩, hb⟩⟩

/-- Only the rename of the key file fails: the old key comes back beside
    the new data, and the error is returned with that store in place. -/
theorem finish_mixes_store :
    ¬ ∀ n, Sound
      (run FileOp.exec (fun _ o => o = .rename .key_tmp .key) finish_files n
        (existing_store none none)).1
      (run FileOp.exec (fun _ o => o = .rename .key_tmp .key) finish_files n
        (existing_store none none)).2 := by
  intro h
  -- Seven operations in: the sixth has failed and the old key is back.
  exact (h 7).1 ⟨by decide, by decide⟩

end LedgerArchive
