import LedgerArchive.Lib.Bytes

/-! # Get: binary readers as programs

    A decoder that is generic over its byte source can do one thing with
    the source: ask for exactly `n` bytes. `Get` is the program such a
    decoder is, and each source gives it a meaning:

    * `run` reads from a byte string and returns what is left;
    * `runSeen` also remembers every byte it has handed out, which is what
      a source that hashes as it reads does.

    A law proved by induction on the program holds for every decoder:
    `runSeen_ok_iff` (the two sources agree), `run_eq_ok_iff` (a decoder
    consumes a prefix and does not look behind it). -/

namespace Lib

/-- A decoder: return a value, fail, or ask for `n` bytes and go on. `short`
    is the error for a source that ends too early. -/
inductive Get (ε α : Type) where
  | ret (a : α)
  | fail (e : ε)
  | exact (n : Nat) (short : ε) (k : Bytes → Get ε α)

namespace Get

variable {ε α β : Type}

def bind : Get ε α → (α → Get ε β) → Get ε β
  | ret a, f => f a
  | fail e, _ => fail e
  | exact n short k, f => exact n short fun b => (k b).bind f

instance : Monad (Get ε) where
  pure := ret
  bind := bind

/-- Read from a byte string; return the value and the unread rest. -/
def run : Get ε α → Bytes → Except ε (α × Bytes)
  | ret a, s => .ok (a, s)
  | fail e, _ => .error e
  | exact n short k, s =>
    if n ≤ s.length then (k (s.take n)).run (s.drop n) else .error short

/-- Read from a byte string and append every byte read to `seen`. -/
def runSeen : Get ε α → Bytes → Bytes → Except ε (α × Bytes × Bytes)
  | ret a, s, seen => .ok (a, s, seen)
  | fail e, _, _ => .error e
  | exact n short k, s, seen =>
    if n ≤ s.length then (k (s.take n)).runSeen (s.drop n) (seen ++ s.take n)
    else .error short

/-- Run a decoder `n` times and collect the values. -/
def times : Nat → Get ε α → Get ε (List α)
  | 0, _ => pure []
  | n + 1, g => do
    let a ← g
    let as ← times n g
    pure (a :: as)

/-! ## Running a sequence -/

@[simp] theorem run_pure (a : α) (s : Bytes) : (pure a : Get ε α).run s = .ok (a, s) := rfl

@[simp] theorem run_ret (a : α) (s : Bytes) : (ret a : Get ε α).run s = .ok (a, s) := rfl

@[simp] theorem run_fail (e : ε) (s : Bytes) : (fail e : Get ε α).run s = .error e := rfl

theorem run_bind' (g : Get ε α) (f : α → Get ε β) (s : Bytes) :
    (g.bind f).run s = (g.run s).bind fun p => (f p.1).run p.2 := by
  induction g generalizing s with
  | ret a => rfl
  | fail e => rfl
  | exact n short k ih =>
    simp only [bind, run]
    split
    · exact ih _ _
    · rfl

@[simp] theorem run_bind (g : Get ε α) (f : α → Get ε β) (s : Bytes) :
    (g >>= f).run s = (g.run s).bind fun p => (f p.1).run p.2 :=
  run_bind' g f s

@[simp] theorem run_map (g : Get ε α) (f : α → β) (s : Bytes) :
    (f <$> g).run s = (g.run s).bind fun p => .ok (f p.1, p.2) :=
  run_bind' g (fun a => ret (f a)) s

@[simp] theorem runSeen_pure (a : α) (s seen : Bytes) :
    (pure a : Get ε α).runSeen s seen = .ok (a, s, seen) := rfl

@[simp] theorem runSeen_fail (e : ε) (s seen : Bytes) :
    (fail e : Get ε α).runSeen s seen = .error e := rfl

theorem runSeen_bind' (g : Get ε α) (f : α → Get ε β) (s seen : Bytes) :
    (g.bind f).runSeen s seen =
      (g.runSeen s seen).bind fun p => (f p.1).runSeen p.2.1 p.2.2 := by
  induction g generalizing s seen with
  | ret a => rfl
  | fail e => rfl
  | exact n short k ih =>
    simp only [bind, runSeen]
    split
    · exact ih _ _ _
    · rfl

@[simp] theorem runSeen_bind (g : Get ε α) (f : α → Get ε β) (s seen : Bytes) :
    (g >>= f).runSeen s seen =
      (g.runSeen s seen).bind fun p => (f p.1).runSeen p.2.1 p.2.2 :=
  runSeen_bind' g f s seen

/-! ## What a decoder consumes -/

/-- `g` turns exactly the bytes `used` into `a`. -/
def Reads (g : Get ε α) (used : Bytes) (a : α) : Prop :=
  g.run used = .ok (a, [])

/-- A decoder consumes a prefix of its input and does not look behind it. -/
theorem run_eq_ok_iff {g : Get ε α} {s rest : Bytes} {a : α} :
    g.run s = .ok (a, rest) ↔ ∃ used, s = used ++ rest ∧ g.Reads used a := by
  unfold Reads
  induction g generalizing s with
  | ret b =>
    constructor
    · intro h
      cases h
      exact ⟨[], rfl, rfl⟩
    · rintro ⟨used, rfl, h⟩
      simp only [run_ret, Except.ok.injEq, Prod.mk.injEq] at h
      obtain ⟨rfl, rfl⟩ := h
      rfl
  | fail e => simp
  | exact n short k ih =>
    constructor
    · intro h
      simp only [run] at h
      split at h
      · next hle =>
        obtain ⟨used, hs, hr⟩ := (ih _).mp h
        have hlen : (s.take n).length = n := by simp [hle]
        refine ⟨s.take n ++ used, ?_, ?_⟩
        · rw [List.append_assoc, ← hs, List.take_append_drop]
        · simp only [run, List.length_append, hlen]
          rw [if_pos (by omega), List.take_left' hlen, List.drop_left' hlen, hr]
      · cases h
    · rintro ⟨used, rfl, h⟩
      simp only [run] at h ⊢
      split at h
      · next hle =>
        rw [if_pos (by simp only [List.length_append]; omega),
          List.take_append_of_le_length hle, List.drop_append_of_le_length hle]
        exact (ih _).mpr ⟨used.drop n, rfl, h⟩
      · cases h

theorem Reads.run_append {g : Get ε α} {used : Bytes} {a : α} (h : g.Reads used a)
    (rest : Bytes) : g.run (used ++ rest) = .ok (a, rest) :=
  run_eq_ok_iff.mpr ⟨used, rfl, h⟩

/-- A string of bytes is read in at most one way. -/
theorem Reads.unique {g : Get ε α} {s u v t t' : Bytes} {a b : α} (hu : g.Reads u a)
    (hv : g.Reads v b) (hs : s = u ++ t) (hs' : s = v ++ t') : a = b ∧ u = v ∧ t = t' := by
  have h1 : g.run s = .ok (a, t) := by rw [hs]; exact hu.run_append t
  have h2 : g.run s = .ok (b, t') := by rw [hs']; exact hv.run_append t'
  rw [h1] at h2
  simp only [Except.ok.injEq, Prod.mk.injEq] at h2
  obtain ⟨rfl, rfl⟩ := h2
  exact ⟨rfl, List.append_cancel_right (hs.symm.trans hs'), rfl⟩

/-! ## Reading a sequence, seen from the writer -/

theorem Reads.bind {g : Get ε α} {f : α → Get ε β} {u v : Bytes} {a : α} {b : β}
    (hg : g.Reads u a) (hf : (f a).Reads v b) : (g >>= f).Reads (u ++ v) b := by
  show (g >>= f).run (u ++ v) = _
  rw [run_bind, hg.run_append v]
  exact hf

/-- A sequence that reads is made of two that do. -/
theorem reads_bind {g : Get ε α} {f : α → Get ε β} {used : Bytes} {b : β} :
    (g >>= f).Reads used b ↔ ∃ a u v, used = u ++ v ∧ g.Reads u a ∧ (f a).Reads v b := by
  constructor
  · intro h
    have hrun : (g >>= f).run used = .ok (b, []) := h
    rw [run_bind] at hrun
    cases hg : g.run used with
    | error e => rw [hg] at hrun; cases hrun
    | ok p =>
      obtain ⟨a, v⟩ := p
      rw [hg] at hrun
      obtain ⟨u, hu, hread⟩ := run_eq_ok_iff.mp hg
      exact ⟨a, u, v, hu, hread, hrun⟩
  · rintro ⟨a, u, v, rfl, hg, hf⟩
    exact hg.bind hf

theorem reads_pure {a b : α} {used : Bytes} :
    (Pure.pure a : Get ε α).Reads used b ↔ a = b ∧ used = [] := by
  unfold Reads
  rw [run_pure, Except.ok.injEq, Prod.mk.injEq]

theorem not_reads_fail {e : ε} {used : Bytes} {a : α} : ¬ (fail e : Get ε α).Reads used a := by
  intro h
  cases h

/-- Reading does not depend on what follows. -/
theorem reads_iff_run_append {g : Get ε α} {used : Bytes} {a : α} :
    g.Reads used a ↔ ∀ rest, g.run (used ++ rest) = .ok (a, rest) := by
  constructor
  · intro h rest
    exact h.run_append rest
  · intro h
    have hnil := h []
    rwa [List.append_nil] at hnil

theorem Reads.pure (a : α) : (Pure.pure a : Get ε α).Reads [] a := rfl

/-- If `g` reads each written piece, `times` reads their concatenation. -/
theorem Reads.times {g : Get ε α} {write : α → Bytes} (as : List α)
    (h : ∀ a ∈ as, g.Reads (write a) a) :
    (times as.length g).Reads (as.flatMap write) as := by
  induction as with
  | nil => exact Reads.pure []
  | cons a as ih =>
    rw [List.length_cons, List.flatMap_cons]
    refine (h a List.mem_cons_self).bind ?_
    rw [← List.append_nil (as.flatMap write)]
    exact (ih fun b hb => h b (List.mem_cons_of_mem _ hb)).bind (Reads.pure _)

theorem reads_times {g : Get ε α} {n : Nat} {used : Bytes} {as : List α}
    (h : (times n g).Reads used as) : as.length = n ∧ ∀ a ∈ as, ∃ u, g.Reads u a := by
  induction n generalizing used as with
  | zero =>
    obtain ⟨rfl, -⟩ := reads_pure.mp h
    exact ⟨rfl, fun a ha => (by cases ha)⟩
  | succ n ih =>
    obtain ⟨a, u, v, -, ha, h⟩ := reads_bind.mp h
    obtain ⟨as', u', v', -, has, h⟩ := reads_bind.mp h
    obtain ⟨rfl, -⟩ := reads_pure.mp h
    obtain ⟨hlen, hall⟩ := ih has
    refine ⟨by rw [List.length_cons, hlen], fun b hb => ?_⟩
    rcases List.mem_cons.mp hb with rfl | hb
    · exact ⟨u, ha⟩
    · exact hall b hb

/-! ## The remembering source -/

/-- The remembering source gives the same value and rest, and has seen the
    bytes in between. -/
theorem runSeen_ok_iff {g : Get ε α} {s seen rest seen' : Bytes} {a : α} :
    g.runSeen s seen = .ok (a, rest, seen') ↔
      ∃ used, s = used ++ rest ∧ seen' = seen ++ used ∧ g.Reads used a := by
  induction g generalizing s seen with
  | ret b =>
    constructor
    · intro h
      cases h
      exact ⟨[], rfl, (List.append_nil _).symm, rfl⟩
    · rintro ⟨used, rfl, rfl, h⟩
      simp only [Reads, run_ret, Except.ok.injEq, Prod.mk.injEq] at h
      obtain ⟨rfl, rfl⟩ := h
      simp [runSeen]
  | fail e => simp [Reads]
  | exact n short k ih =>
    simp only [runSeen]
    split
    · next hle =>
      have hlen : (s.take n).length = n := by simp [hle]
      rw [ih]
      constructor
      · rintro ⟨used, hs, hseen, hr⟩
        refine ⟨s.take n ++ used, ?_, ?_, ?_⟩
        · rw [List.append_assoc, ← hs, List.take_append_drop]
        · rw [hseen, List.append_assoc]
        · simp only [Reads, run, List.length_append, hlen]
          rw [if_pos (by omega), List.take_left' hlen, List.drop_left' hlen]
          exact hr
      · rintro ⟨used, rfl, rfl, hr⟩
        simp only [Reads, run] at hr
        split at hr
        · next hle' =>
          refine ⟨used.drop n, ?_, ?_, ?_⟩
          · rw [List.drop_append_of_le_length hle']
          · rw [List.append_assoc, List.take_append_of_le_length hle', List.take_append_drop]
          · rw [List.take_append_of_le_length hle']
            exact hr
        · cases hr
    · next hle =>
      constructor
      · intro h; cases h
      · rintro ⟨used, rfl, -, hr⟩
        simp only [Reads, run] at hr
        split at hr
        · next hle' => simp only [List.length_append] at hle; omega
        · cases hr

end Get

end Lib
