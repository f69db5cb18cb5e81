import Mathlib.Logic.Basic

/-! # Programs of fallible steps, cut off anywhere

    A program changes an outside state by steps that fail or succeed as
    the world decides, and it can be cut off after any of them. `Prog` is
    such a program: it asks for a step and goes on with whether the step
    succeeded, or it looks at the state.

    `fails i o` says that the world makes the step number `i` fail if it is
    `o`; a step that fails has no effect. `Always` says that a property
    holds of every state the program can be cut off in, and of its result,
    for one such choice of the world. Its laws take a program apart step by
    step (`always_step`).

    `Throughout may` is read off the program: the property holds wherever
    the program is cut off and whichever of the steps in `may` fail, so it
    holds in every run in which no others do (`Throughout.always`). -/

namespace Lib

/-- A program over the state `S` with the steps `Op`. -/
inductive Prog (S Op α : Type) where
  | ret (a : α)
  | step (o : Op) (k : Bool → Prog S Op α)
  | look (q : S → Bool) (k : Bool → Prog S Op α)

namespace Prog

variable {S Op α β : Type}

def bind : Prog S Op α → (α → Prog S Op β) → Prog S Op β
  | ret a, f => f a
  | step o k, f => step o fun b => (k b).bind f
  | look q k, f => look q fun b => (k b).bind f

/-- Which steps fail from the second one on. -/
def later (fails : Nat → Op → Bool) : Nat → Op → Bool := fun i => fails (i + 1)

@[simp] theorem later_apply (fails : Nat → Op → Bool) (i : Nat) : later fails i = fails (i + 1) :=
  rfl

section Run

-- `exec o s` is the state after the step `o`, or `none` when `o` cannot be
-- taken in `s`.
variable (exec : Op → S → Option S)

/-- The state after `o`, or `none` when the step fails. -/
def outcome (fails : Op → Bool) (o : Op) (s : S) : Option S :=
  if fails o then none else exec o s

/-- Run a program and cut it off after `n` steps: the state it leaves, and
    its result if it has come to its end. -/
def run : (Nat → Op → Bool) → Prog S Op α → Nat → S → S × Option α
  | _, ret a, _, s => (s, some a)
  | _, step _ _, 0, s => (s, none)
  | fails, step o k, n + 1, s =>
    match outcome exec (fails 0) o s with
    | some s' => run (later fails) (k true) n s'
    | none => run (later fails) (k false) n s
  | fails, look q k, n, s => run fails (k (q s)) n s

/-- Wherever the program is cut off, `P` holds of the state it leaves and
    of its result. -/
def Always (fails : Nat → Op → Bool) (P : S → Option α → Prop) (p : Prog S Op α) (s : S) : Prop :=
  ∀ n, P (run exec fails p n s).1 (run exec fails p n s).2

/-- Wherever the program is cut off and whichever of the steps in `may`
    fail, `P` holds of the state and of the result. -/
def Throughout (may : Op → Prop) (P : S → Option α → Prop) : Prog S Op α → S → Prop
  | ret a, s => P s (some a)
  | step o k, s => P s none ∧ (∀ s', exec o s = some s' → Throughout may P (k true) s') ∧
      (may o ∨ exec o s = none → Throughout may P (k false) s)
  | look q k, s => Throughout may P (k (q s)) s

end Run

variable {exec : Op → S → Option S} {P : S → Option α → Prop} {s s' : S}

/-! ## One choice of the world -/

section Always

variable {fails : Nat → Op → Bool}

theorem always_congr {Q : S → Option α → Prop} {p : Prog S Op α} (h : ∀ s r, P s r ↔ Q s r) :
    Always exec fails P p s ↔ Always exec fails Q p s :=
  forall_congr' fun _ => h _ _

/-- A step the world makes fail. -/
theorem outcome_fail {fails : Op → Bool} {o : Op} (h : fails o = true) :
    outcome exec fails o s = none := by
  unfold outcome
  rw [if_pos h]

theorem outcome_ok {fails : Op → Bool} {o : Op} (h : fails o = false) :
    outcome exec fails o s = exec o s := by
  unfold outcome
  rw [h]
  rfl

/-- A step that does not fail is taken. -/
theorem outcome_some {fails : Op → Bool} {o : Op} (h : outcome exec fails o s = some s') :
    exec o s = some s' := by
  unfold outcome at h
  split at h
  · cases h
  · exact h

@[simp] theorem always_ret {a : α} : Always exec fails P (ret a) s ↔ P s (some a) :=
  ⟨fun h => h 0, fun h _ => h⟩

@[simp] theorem always_look {q : S → Bool} {k : Bool → Prog S Op α} :
    Always exec fails P (look q k) s ↔ Always exec fails P (k (q s)) s :=
  Iff.rfl

/-- A program that goes on as `q` from `t` when its first step is done. -/
theorem always_of_run {fails' : Nat → Op → Bool} {p q : Prog S Op α} {t : S}
    (hcut : run exec fails p 0 s = (s, none))
    (hrun : ∀ n, run exec fails p (n + 1) s = run exec fails' q n t) :
    Always exec fails P p s ↔ P s none ∧ Always exec fails' P q t := by
  constructor
  · intro ha
    refine ⟨?_, fun n => ?_⟩
    · have h0 := ha 0
      rwa [hcut] at h0
    · rw [← hrun]
      exact ha (n + 1)
  · rintro ⟨h0, ha⟩ n
    cases n with
    | zero => rwa [hcut]
    | succ n =>
      rw [hrun]
      exact ha n

/-- A step that succeeds. -/
theorem always_step_ok {o : Op} {k : Bool → Prog S Op α}
    (h : outcome exec (fails 0) o s = some s') :
    Always exec fails P (step o k) s ↔ P s none ∧ Always exec (later fails) P (k true) s' :=
  always_of_run rfl fun n => by simp only [run, h]

/-- A step that fails. -/
theorem always_step_err {o : Op} {k : Bool → Prog S Op α}
    (h : outcome exec (fails 0) o s = none) :
    Always exec fails P (step o k) s ↔ P s none ∧ Always exec (later fails) P (k false) s :=
  always_of_run rfl fun n => by simp only [run, h]

/-- A step, whatever its outcome. -/
theorem always_step {o : Op} {k : Bool → Prog S Op α} :
    Always exec fails P (step o k) s ↔ P s none ∧
      match outcome exec (fails 0) o s with
      | some s' => Always exec (later fails) P (k true) s'
      | none => Always exec (later fails) P (k false) s := by
  cases h : outcome exec (fails 0) o s with
  | some s' => exact always_step_ok h
  | none => exact always_step_err h

/-- A sequence whose second program does well or badly whatever fails in
    it: the first program is cut off, or ends where the second one does
    well. -/
theorem always_bind {p : Prog S Op α} {f : α → Prog S Op β} {Q : S → Option β → Prop}
    {R : S → α → Prop} (hf : ∀ fails a t, Always exec fails Q (f a) t ↔ R t a) :
    Always exec fails Q (p.bind f) s ↔
      Always exec fails (fun t r => match r with
        | none => Q t none
        | some a => R t a) p s := by
  induction p generalizing fails s with
  | ret a =>
    rw [always_ret]
    exact hf fails a s
  | step o k ih =>
    show Always exec fails Q (step o fun b => (k b).bind f) s ↔ _
    rw [always_step, always_step]
    cases outcome exec (fails 0) o s with
    | some s' => simp only [ih]
    | none => simp only [ih]
  | look q k ih =>
    show Always exec fails Q (look q fun b => (k b).bind f) s ↔ _
    rw [always_look, always_look]
    exact ih (q s)

end Always

/-! ## Every choice of the world -/

section Throughout

variable {may : Op → Prop}

/-- What holds throughout holds in every run in which no other steps
    fail. -/
theorem Throughout.always {fails : Nat → Op → Bool} {p : Prog S Op α}
    (h : Throughout exec may P p s) (hmay : ∀ i o, fails i o = true → may o) :
    Always exec fails P p s := by
  induction p generalizing fails s with
  | ret a => exact always_ret.mpr h
  | step o k ih =>
    obtain ⟨hnone, hok, herr⟩ := h
    have hlater : ∀ i o, later fails i o = true → may o := fun i => hmay (i + 1)
    rw [always_step]
    refine ⟨hnone, ?_⟩
    unfold outcome
    -- Whether the world fails the step or it cannot be taken, `may` has a case.
    by_cases hfail : fails 0 o = true
    · rw [if_pos hfail]
      exact ih false (herr (.inl (hmay 0 o hfail))) hlater
    · rw [if_neg hfail]
      cases hexec : exec o s with
      | some s' => exact ih true (hok s' hexec) hlater
      | none => exact ih false (herr (.inr hexec)) hlater
  | look q k ih => exact ih (q s) h hmay

theorem throughout_look {q : S → Bool} {k : Bool → Prog S Op α} :
    Throughout exec may P (look q k) s ↔ Throughout exec may P (k (q s)) s :=
  Iff.rfl

theorem Throughout.mono {Q : S → Option α → Prop} {p : Prog S Op α}
    (h : Throughout exec may P p s) (hPQ : ∀ t r, P t r → Q t r) : Throughout exec may Q p s := by
  induction p generalizing s with
  | ret a => exact hPQ _ _ h
  | step o k ih =>
    obtain ⟨hnone, hok, herr⟩ := h
    exact ⟨hPQ _ _ hnone, fun s' hs' => ih true (hok s' hs'), fun hfail => ih false (herr hfail)⟩
  | look q k ih => exact ih (q s) h

/-- A sequence: the first program is cut off, or ends and the second one
    runs on from there. -/
theorem throughout_bind {p : Prog S Op α} {f : α → Prog S Op β} {Q : S → Option β → Prop} :
    Throughout exec may Q (p.bind f) s ↔
      Throughout exec may (fun t r => match r with
        | none => Q t none
        | some a => Throughout exec may Q (f a) t) p s := by
  induction p generalizing s with
  | ret a => exact Iff.rfl
  | step o k ih =>
    show Throughout exec may Q (step o fun b => (k b).bind f) s ↔ _
    unfold Throughout
    simp only [ih]
  | look q k ih => exact ih (q s)

end Throughout

/-! ## A program on a part of a larger state -/

section Within

variable {S' Op' : Type}

/-- The program `p`, with its steps taken as steps `inject o` of a larger
    system, of whose state it sees `get`. -/
def within (inject : Op → Op') (get : S' → S) : Prog S Op α → Prog S' Op' α
  | ret a => ret a
  | step o k => step (inject o) fun b => (k b).within inject get
  | look q k => look (q ∘ get) fun b => (k b).within inject get

variable {inject : Op → Op'} {get : S' → S} {set : S → S' → S'} {exec' : Op' → S' → Option S'}
  {may' : Op' → Prop}

/-- Such a program changes its own part and leaves the rest. -/
theorem throughout_within (hget : ∀ a t, get (set a t) = a) (hset : ∀ t, set (get t) t = t)
    (htwice : ∀ a b t, set a (set b t) = set a t)
    (hexec : ∀ o t, exec' (inject o) t = (exec o (get t)).map fun a => set a t)
    {p : Prog S Op α} {P : S' → Option α → Prop} {t : S'}
    (h : Throughout exec (may' ∘ inject) (fun a r => P (set a t) r) p (get t)) :
    Throughout exec' may' P (p.within inject get) t := by
  induction p generalizing t with
  | ret a =>
    have h : P (set (get t) t) (some a) := h
    rwa [hset] at h
  | step o k ih =>
    obtain ⟨hnone, hok, herr⟩ := h
    rw [hset] at hnone
    -- The step is taken in the part, and its outcome is written back.
    refine ⟨hnone, fun t' ht' => ?_, fun hfail => ih false (herr ?_)⟩
    · rw [hexec] at ht'
      obtain ⟨a, ha, rfl⟩ := Option.map_eq_some_iff.mp ht'
      refine ih true ?_
      rw [hget]
      simp only [htwice]
      exact hok a ha
    · rw [hexec, Option.map_eq_none_iff] at hfail
      exact hfail
  | look q k ih => exact ih (q (get t)) h

end Within

/-! ## Programs one after the other -/

/-- A program, the steps that the world makes fail, and when it is cut
    off. -/
structure Job (S Op α : Type) where
  prog : Prog S Op α
  fails : Nat → Op → Bool
  steps : Nat

section History

variable (exec)

/-- The state behind some jobs. Each of them runs on from what the one
    before it has left. -/
def history (jobs : List (Job S Op α)) (s : S) : S :=
  jobs.foldl (fun s job => (run exec job.fails job.prog job.steps s).1) s

variable {exec}

/-- What no job breaks, from whatever state that satisfies it, holds behind
    all of them. -/
theorem history_invariant {I : S → Prop} {jobs : List (Job S Op α)}
    (hjobs : ∀ job ∈ jobs, ∀ t, I t → Always exec job.fails (fun t' _ => I t') job.prog t)
    (hs : I s) : I (history exec jobs s) := by
  induction jobs generalizing s with
  | nil => exact hs
  | cons job jobs ih =>
    -- The first job leaves a state from which the others start.
    exact ih (fun other hother => hjobs other (List.mem_cons_of_mem job hother))
      (hjobs job List.mem_cons_self s hs job.steps)

end History

end Prog

end Lib
