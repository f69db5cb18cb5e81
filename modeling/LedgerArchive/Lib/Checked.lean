import LedgerArchive.Lib.Except
import Mathlib.Algebra.Group.Nat.Defs

/-! # Runs with overflow checks

    A program whose arithmetic wraps in one build is stopped by the overflow
    in another. `Checked` is the second build: a run is `none` when an
    operation overflows. `Agrees x y` says that the checked run `x` either
    overflows or is the run `y` of the build that wraps. -/

namespace Lib

abbrev Checked (ε α : Type) := ExceptT ε Option α

variable {ε α β ν : Type}

instance : MonadLift (Except ε) (Checked ε) := ⟨fun x => ExceptT.mk (some x)⟩

def Checked.Overflows (x : Checked ε α) : Prop := x.run = none

instance (x : Checked ε α) : Decidable x.Overflows :=
  inferInstanceAs (Decidable (x.run = none))

def Checked.Agrees (x : Checked ε α) (y : Except ε α) : Prop := x.Overflows ∨ x.run = some y

/-- `a - b` on unsigned numbers. -/
def checked_sub [LE ν] [DecidableLE ν] [Sub ν] (a b : ν) : Checked ε ν :=
  ExceptT.mk (if b ≤ a then some (.ok (a - b)) else none)

/-- `a + b` on `u32`. -/
def checked_add (a b : UInt32) : Checked ε UInt32 :=
  ExceptT.mk (if a.toNat + b.toNat < 2 ^ 32 then some (.ok (a + b)) else none)

/-- `a * b` on `u32`. -/
def checked_mul32 (a b : UInt32) : Checked ε UInt32 :=
  ExceptT.mk (if a.toNat * b.toNat < 2 ^ 32 then some (.ok (a * b)) else none)

/-- `a * b` on `u64`, with the numbers as naturals. -/
def checked_mul (a b : Nat) : Checked ε Nat :=
  ExceptT.mk (if a * b < 2 ^ 64 then some (.ok (a * b)) else none)

namespace Checked

@[simp] theorem run_lift (x : Except ε α) : (liftM x : Checked ε α).run = some x := rfl

@[simp] theorem run_pure (a : α) : (pure a : Checked ε α).run = some (.ok a) := rfl

theorem overflows_bind {x : Checked ε α} {f : α → Checked ε β} :
    (x >>= f).Overflows ↔ x.Overflows ∨ ∃ a, x.run = some (.ok a) ∧ (f a).Overflows := by
  unfold Overflows
  rw [ExceptT.run_bind]
  cases x.run with
  | none => simp
  | some r =>
    cases r with
    | error e => simp
    | ok a => simp

/-- The rest of a run, behind a part that has returned. -/
theorem run_bind_of_ok {x : Checked ε α} {a : α} (h : x.run = some (.ok a))
    (f : α → Checked ε β) : (x >>= f).run = (f a).run := by
  rw [ExceptT.run_bind, h]
  rfl

/-- Without arithmetic the two builds are the same. -/
theorem run_lift_bind_lift (x : Except ε α) (f : α → Except ε β) :
    (liftM x >>= fun a => liftM (f a) : Checked ε β).run = some (x >>= f) := by
  cases x with
  | error e => rfl
  | ok a => rfl

/-- A sequence that returns is made of two that do. -/
theorem bind_run_ok {x : Checked ε α} {f : α → Checked ε β} {b : β} :
    (x >>= f).run = some (.ok b) ↔ ∃ a, x.run = some (.ok a) ∧ (f a).run = some (.ok b) := by
  rw [ExceptT.run_bind]
  cases x.run with
  | none => simp
  | some r =>
    cases r with
    | error e => simp
    | ok a => simp

/-- A loop whose rounds never overflow. -/
theorem run_foldlM {σ : Type} {f : σ → α → Checked ε σ} {g : σ → α → Except ε σ}
    (h : ∀ s a, (f s a).run = some (g s a)) (l : List α) (s : σ) :
    (l.foldlM f s).run = some (l.foldlM g s) := by
  induction l generalizing s with
  | nil => rfl
  | cons a l ih =>
    rw [List.foldlM_cons, List.foldlM_cons, ExceptT.run_bind, h]
    cases g s a with
    | error e => rfl
    | ok t => exact ih t

theorem not_overflows_lift (x : Except ε α) : ¬ (liftM x : Checked ε α).Overflows := by
  simp [Overflows]

theorem not_overflows_pure (a : α) : ¬ (pure a : Checked ε α).Overflows := by
  simp [Overflows]

/-- A step without arithmetic: the overflow is behind it. -/
theorem overflows_lift_bind {x : Except ε α} {f : α → Checked ε β} :
    (liftM x >>= f : Checked ε β).Overflows ↔ ∃ a, x = .ok a ∧ (f a).Overflows := by
  rw [overflows_bind]
  simp [Overflows]

theorem overflows_sub [LE ν] [DecidableLE ν] [Sub ν] {a b : ν} :
    (checked_sub a b : Checked ε ν).Overflows ↔ ¬ b ≤ a := by
  unfold Overflows checked_sub
  rw [ExceptT.run_mk]
  split
  · next h => simpa using h
  · next h => simpa using h

theorem overflows_add {a b : UInt32} :
    (checked_add a b : Checked ε UInt32).Overflows ↔ 2 ^ 32 ≤ a.toNat + b.toNat := by
  unfold Overflows checked_add
  rw [ExceptT.run_mk]
  split
  · next h => simpa using h
  · next h => simpa using h

theorem run_sub [LE ν] [DecidableLE ν] [Sub ν] {a b : ν} (h : b ≤ a) :
    (checked_sub a b : Checked ε ν).run = some (.ok (a - b)) := by
  unfold checked_sub
  rw [ExceptT.run_mk, if_pos h]

theorem run_add {a b : UInt32} (h : a.toNat + b.toNat < 2 ^ 32) :
    (checked_add a b : Checked ε UInt32).run = some (.ok (a + b)) := by
  unfold checked_add
  rw [ExceptT.run_mk, if_pos h]

theorem run_mul32 {a b : UInt32} (h : a.toNat * b.toNat < 2 ^ 32) :
    (checked_mul32 a b : Checked ε UInt32).run = some (.ok (a * b)) := by
  unfold checked_mul32
  rw [ExceptT.run_mk, if_pos h]

theorem run_mul {a b : Nat} (h : a * b < 2 ^ 64) :
    (checked_mul a b : Checked ε Nat).run = some (.ok (a * b)) := by
  unfold checked_mul
  rw [ExceptT.run_mk, if_pos h]

theorem sub_run_ok [LE ν] [DecidableLE ν] [Sub ν] {a b c : ν} :
    (checked_sub a b : Checked ε ν).run = some (.ok c) ↔ b ≤ a ∧ a - b = c := by
  unfold checked_sub
  rw [ExceptT.run_mk]
  split
  · next h => simp [h]
  · next h => simp [h]

theorem overflows_sub_bind [LE ν] [DecidableLE ν] [Sub ν] {a b : ν} {f : ν → Checked ε α} :
    (checked_sub a b >>= f).Overflows ↔ ¬ b ≤ a ∨ (b ≤ a ∧ (f (a - b)).Overflows) := by
  rw [overflows_bind, overflows_sub]
  by_cases h : b ≤ a
  · simp [run_sub h, h]
  · simp [h]

theorem overflows_add_bind {a b : UInt32} {f : UInt32 → Checked ε α} :
    (checked_add a b >>= f).Overflows ↔
      2 ^ 32 ≤ a.toNat + b.toNat ∨ (a.toNat + b.toNat < 2 ^ 32 ∧ (f (a + b)).Overflows) := by
  rw [overflows_bind, overflows_add]
  by_cases h : a.toNat + b.toNat < 2 ^ 32
  · rw [run_add h]
    constructor
    · rintro (hge | ⟨c, hc, hover⟩)
      · exact absurd h (Nat.not_lt.mpr hge)
      · cases hc
        exact .inr ⟨h, hover⟩
    · rintro (hge | ⟨-, hover⟩)
      · exact absurd h (Nat.not_lt.mpr hge)
      · exact .inr ⟨_, rfl, hover⟩
  · have hge : 2 ^ 32 ≤ a.toNat + b.toNat := Nat.not_lt.mp h
    constructor
    · intro _
      exact .inl hge
    · intro _
      exact .inl hge

theorem add_run_ok {a b c : UInt32} :
    (checked_add a b : Checked ε UInt32).run = some (.ok c) ↔
      a.toNat + b.toNat < 2 ^ 32 ∧ a + b = c := by
  unfold checked_add
  rw [ExceptT.run_mk]
  split
  · next h =>
    rw [Option.some.injEq, Except.ok.injEq]
    exact ⟨fun hc => ⟨h, hc⟩, fun hc => hc.2⟩
  · next h =>
    constructor
    · intro hc
      cases hc
    · intro hc
      exact absurd hc.1 h

/-! ## Agreement -/

theorem agrees_lift (x : Except ε α) : Agrees (liftM x) x := .inr rfl

theorem agrees_pure (a : α) : Agrees (pure a : Checked ε α) (.ok a) := .inr rfl

theorem agrees_add (a b : UInt32) : Agrees (checked_add a b : Checked ε UInt32) (.ok (a + b)) := by
  by_cases h : a.toNat + b.toNat < 2 ^ 32
  · exact .inr (run_add h)
  · exact .inl (overflows_add.mpr (Nat.not_lt.mp h))

/-- A checked run that comes to its end is the other run. -/
theorem Agrees.run_eq_some {x : Checked ε α} {y r : Except ε α} (h : Agrees x y) :
    x.run = some r ↔ ¬ x.Overflows ∧ y = r := by
  unfold Agrees Overflows at *
  rcases h with h | h
  · simp [h]
  · simp [h]

/-- Programs whose steps agree agree. -/
theorem Agrees.bind {x : Checked ε α} {y : Except ε α} {f : α → Checked ε β} {g : α → Except ε β}
    (hx : Agrees x y) (hf : ∀ a, y = .ok a → Agrees (f a) (g a)) : Agrees (x >>= f) (y >>= g) := by
  rcases hx with hx | hx
  · exact .inl (overflows_bind.mpr (.inl hx))
  · cases y with
    | error e =>
      refine .inr ?_
      rw [ExceptT.run_bind, hx]
      rfl
    | ok a =>
      have hbind := run_bind_of_ok hx f
      rcases hf a rfl with ha | ha
      · exact .inl (hbind.trans ha)
      · exact .inr (hbind.trans ha)

theorem Agrees.lift_bind {x : Except ε α} {f : α → Checked ε β} {g : α → Except ε β}
    (h : ∀ a, x = .ok a → Agrees (f a) (g a)) : Agrees (liftM x >>= f : Checked ε β) (x >>= g) :=
  (agrees_lift x).bind h

theorem Agrees.foldlM {σ : Type} {f : σ → α → Checked ε σ} {g : σ → α → Except ε σ}
    (h : ∀ s a, Agrees (f s a) (g s a)) (l : List α) (s : σ) :
    Agrees (l.foldlM f s) (l.foldlM g s) := by
  induction l generalizing s with
  | nil => exact agrees_pure s
  | cons a l ih =>
    rw [List.foldlM_cons, List.foldlM_cons]
    exact (h s a).bind fun t _ => ih t

/-- The first part of a program may be run once more in front of it. -/
theorem Agrees.first {x : Checked ε α} {y : Except ε α} {f : α → Checked ε β}
    {g : α → Except ε β} (hx : Agrees x y) (hf : ∀ a, y = .ok a → Agrees (f a) (y >>= g)) :
    Agrees (x >>= f) (y >>= g) := by
  refine hx.bind fun a ha => ?_
  have hfa := hf a ha
  rw [ha] at hfa
  exact hfa

/-- Checked arithmetic that the wrapping program does in passing. -/
theorem Agrees.sub_bind [LE ν] [DecidableLE ν] [Sub ν] {a b : ν} {f : ν → Checked ε α}
    {y : Except ε α} (h : b ≤ a → Agrees (f (a - b)) y) : Agrees (checked_sub a b >>= f) y := by
  by_cases hle : b ≤ a
  · rcases h hle with hover | hrun
    · exact .inl (overflows_sub_bind.mpr (.inr ⟨hle, hover⟩))
    · exact .inr ((run_bind_of_ok (run_sub hle) f).trans hrun)
  · exact .inl (overflows_sub_bind.mpr (.inl hle))

theorem Agrees.add_bind {a b : UInt32} {f : UInt32 → Checked ε α} {y : Except ε α}
    (h : Agrees (f (a + b)) y) : Agrees (checked_add a b >>= f) y := by
  have hbind := (agrees_add (ε := ε) a b).bind (f := f) (g := fun _ => y) fun n hn => by
    rw [← Except.ok.inj hn]
    exact h
  exact hbind

end Checked

end Lib
