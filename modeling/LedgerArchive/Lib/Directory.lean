import LedgerArchive.Lib.Steps
import Mathlib.Data.List.Induction
import Mathlib.Logic.Function.Basic

/-! # Files that are published by a rename

    A file that others may read must never be seen half written. A program
    writes it under another name, and renames it when it is whole. While it
    writes, the directory is what it was but for that name (`SameBut`); the
    rename makes the file appear as a whole (`exec_rename`).

    `attempt` is a step of such a program: when it fails, the file that was
    being written is removed. `publish_all` is the directory behind several
    such files. -/

namespace Lib

/-- What is in a file: something a program has not finished, or a value. -/
inductive Content (V : Type) where
  | unfinished
  | whole (v : V)
  deriving DecidableEq

abbrev Directory (N V : Type) := N → Option (Content V)

/-- The operations on a directory. The writes to one file are told apart by
    what they write, its piece `k`. -/
inductive DirOp (N K V : Type) where
  | create (name : N)
  | write (name : N) (k : K)
  /-- The last write, behind which the file is whole. -/
  | complete (name : N) (v : V)
  | rename (source target : N)
  | remove (name : N)
  | sync (name : N)
  deriving DecidableEq

variable {N K V E α : Type} [DecidableEq N]

open Function (update)

def DirOp.exec : DirOp N K V → Directory N V → Option (Directory N V)
  | create name, d => some (update d name (some .unfinished))
  | write name _, d => (d name).map fun _ => update d name (some .unfinished)
  | complete name v, d => (d name).map fun _ => update d name (some (.whole v))
  | rename source target, d => (d source).map fun c => update (update d source none) target (some c)
  | remove name, d => (d name).map fun _ => update d name none
  | sync _, d => some d

/-- The operation changes no file but this one. -/
def DirOp.Within (name : N) : DirOp N K V → Prop
  | create other => other = name
  | write other _ => other = name
  | complete other _ => other = name
  | rename _ _ => False
  | remove other => other = name
  | sync _ => True

/-- The directories differ at most in one file. -/
def SameBut (name : N) (d b : Directory N V) : Prop := ∀ other, other ≠ name → d other = b other

/-- The file has appeared, and its temporary name is gone. -/
def publish (d : Directory N V) (tmp name : N) (v : V) : Directory N V :=
  update (update d tmp none) name (some (.whole v))

section SameBut

variable {tmp name : N} {d d' b : Directory N V} {v : V}

omit [DecidableEq N] in
theorem SameBut.refl (d : Directory N V) : SameBut tmp d d := fun _ _ => rfl

theorem SameBut.update (h : SameBut tmp d b) (c : Option (Content V)) :
    SameBut tmp (update d tmp c) b := by
  intro other hne
  rw [Function.update_of_ne hne]
  exact h other hne

theorem SameBut.eq (h : SameBut tmp d b) (htmp : d tmp = b tmp) : d = b := by
  funext other
  by_cases heq : other = tmp
  · rw [heq, htmp]
  · exact h other heq

theorem SameBut.exec (h : SameBut tmp d b) {op : DirOp N K V} (hexec : op.exec d = some d')
    (hop : op.Within tmp) : SameBut tmp d' b := by
  cases op with
  | create other =>
    obtain rfl : other = tmp := hop
    rw [← Option.some.inj hexec]
    exact h.update _
  | write other k =>
    obtain rfl : other = tmp := hop
    obtain ⟨_, -, rfl⟩ := Option.map_eq_some_iff.mp hexec
    exact h.update _
  | complete other v =>
    obtain rfl : other = tmp := hop
    obtain ⟨_, -, rfl⟩ := Option.map_eq_some_iff.mp hexec
    exact h.update _
  | rename source target => exact absurd hop id
  | remove other =>
    obtain rfl : other = tmp := hop
    obtain ⟨_, -, rfl⟩ := Option.map_eq_some_iff.mp hexec
    exact h.update _
  | sync other =>
    rw [← Option.some.inj hexec]
    exact h

/-- A whole file is published by its rename. -/
theorem SameBut.exec_rename (h : SameBut tmp d b) (hv : d tmp = some (.whole v)) :
    (DirOp.rename tmp name : DirOp N K V).exec d = some (publish b tmp name v) := by
  show (d tmp).map _ = _
  rw [hv, Option.map_some]
  congr 1
  unfold publish
  congr 1
  funext other
  by_cases heq : other = tmp
  · rw [heq, Function.update_self, Function.update_self]
  · rw [Function.update_of_ne heq, Function.update_of_ne heq]
    exact h other heq

end SameBut

/-! ## Programs that write a file -/

namespace Prog

variable {may : DirOp N K V → Prop} {P : Directory N V → Option (Except E α) → Prop} {tmp : N}
  {d d' b : Directory N V}

/-- Remove the temporary file and return the error. -/
def give_up (tmp : N) (e : E) : Prog (Directory N V) (DirOp N K V) (Except E α) :=
  .step (.remove tmp) fun _ => .ret (.error e)

/-- One step, and when it fails the temporary file is removed. -/
def attempt (tmp : N) (op : DirOp N K V) (e : E)
    (k : Prog (Directory N V) (DirOp N K V) (Except E α)) :
    Prog (Directory N V) (DirOp N K V) (Except E α) :=
  .step op fun ok => if ok then k else give_up tmp e

/-- Behind an error the temporary file is gone, unless it could not be
    removed. -/
def Cleaned (may : DirOp N K V → Prop) (tmp : N) (d : Directory N V) : Prop :=
  d tmp = none ∨ may (.remove tmp)

theorem throughout_give_up (h : SameBut tmp d b) (e : E) (hmid : ∀ d, SameBut tmp d b → P d none)
    (herr : ∀ d, SameBut tmp d b → Cleaned may tmp d → P d (some (.error e))) :
    Throughout DirOp.exec may P (give_up tmp e) d := by
  refine ⟨hmid d h, fun d' hexec => ?_, fun hfail => ?_⟩
  · have hsame := h.exec hexec rfl
    obtain ⟨_, -, rfl⟩ := Option.map_eq_some_iff.mp hexec
    exact herr _ hsame (.inl (Function.update_self ..))
  · rcases hfail with hfail | hnone
    · exact herr d h (.inr hfail)
    · exact herr d h (.inl (Option.map_eq_none_iff.mp hnone))

/-- A step on the temporary file. -/
theorem throughout_attempt (h : SameBut tmp d b) {op : DirOp N K V} (hop : op.Within tmp) {e : E}
    {k : Prog (Directory N V) (DirOp N K V) (Except E α)}
    (hmid : ∀ d, SameBut tmp d b → P d none)
    (herr : ∀ d, SameBut tmp d b → Cleaned may tmp d → P d (some (.error e)))
    (hok : ∀ d', op.exec d = some d' → SameBut tmp d' b → Throughout DirOp.exec may P k d') :
    Throughout DirOp.exec may P (attempt tmp op e k) d :=
  -- A step that fails leaves the directory as it was.
  ⟨hmid d h, fun d' hexec => hok d' hexec (h.exec hexec hop),
    fun _ => throughout_give_up h e hmid herr⟩

/-- The rename of a whole file. -/
theorem throughout_attempt_rename (h : SameBut tmp d b) {v : V} (hv : d tmp = some (.whole v))
    {name : N} {e : E} {k : Prog (Directory N V) (DirOp N K V) (Except E α)}
    (hmid : ∀ d, SameBut tmp d b → P d none)
    (herr : ∀ d, SameBut tmp d b → Cleaned may tmp d → P d (some (.error e)))
    (hok : Throughout DirOp.exec may P k (publish b tmp name v)) :
    Throughout DirOp.exec may P (attempt tmp (.rename tmp name) e k) d := by
  refine ⟨hmid d h, fun d' hexec => ?_, fun _ => throughout_give_up h e hmid herr⟩
  rw [h.exec_rename hv] at hexec
  rw [← Option.some.inj hexec]
  exact hok

end Prog

/-! ## Files that are published one after the other -/

section PublishAll

variable {F : Type} (name_of tmp_of : F → N) (value_of : F → V)

def publish_all (d : Directory N V) (files : List F) : Directory N V :=
  files.foldl (fun d f => publish d (tmp_of f) (name_of f) (value_of f)) d

variable {name_of tmp_of value_of} {d : Directory N V} {files : List F} {name : N}

theorem publish_all_append (more : List F) :
    publish_all name_of tmp_of value_of d (files ++ more) =
      publish_all name_of tmp_of value_of (publish_all name_of tmp_of value_of d files) more :=
  List.foldl_append

/-- Every other file is as it was. -/
theorem publish_all_other (hname : ∀ f ∈ files, name ≠ name_of f)
    (htmp : ∀ f ∈ files, name ≠ tmp_of f) :
    publish_all name_of tmp_of value_of d files name = d name := by
  induction files generalizing d with
  | nil => rfl
  | cons f files ih =>
    refine (ih (fun g hg => hname g (List.mem_cons_of_mem f hg))
      (fun g hg => htmp g (List.mem_cons_of_mem f hg))).trans ?_
    show publish d (tmp_of f) (name_of f) (value_of f) name = d name
    unfold publish
    rw [Function.update_of_ne (hname f List.mem_cons_self),
      Function.update_of_ne (htmp f List.mem_cons_self)]

/-- The files are there as a whole, if their names differ from one another
    and from the temporary names. -/
theorem publish_all_mem (hnames : (files.map name_of).Nodup)
    (htmps : ∀ f ∈ files, ∀ g ∈ files, name_of f ≠ tmp_of g) {f : F} (hf : f ∈ files) :
    publish_all name_of tmp_of value_of d files (name_of f) = some (.whole (value_of f)) := by
  induction files generalizing d with
  | nil => cases hf
  | cons g files ih =>
    obtain ⟨hg, hnames⟩ := List.nodup_cons.mp hnames
    rcases List.mem_cons.mp hf with rfl | hf
    · -- Nothing behind it changes the file.
      show publish_all name_of tmp_of value_of (publish d (tmp_of f) (name_of f) (value_of f)) files
        (name_of f) = _
      refine (publish_all_other ?_ ?_).trans (Function.update_self ..)
      · intro h hh heq
        exact hg (heq ▸ List.mem_map_of_mem hh)
      · intro h hh
        exact htmps f List.mem_cons_self h (List.mem_cons_of_mem f hh)
    · exact ih hnames (fun a ha b hb => htmps a (List.mem_cons_of_mem g ha) b
        (List.mem_cons_of_mem g hb)) hf

/-- The temporary names are gone. -/
theorem publish_all_tmp (htmps : ∀ f ∈ files, ∀ g ∈ files, name_of f ≠ tmp_of g) {f : F}
    (hf : f ∈ files) : publish_all name_of tmp_of value_of d files (tmp_of f) = none := by
  -- The last file to have the temporary name took it away.
  induction files using List.reverseRec with
  | nil => cases hf
  | append_singleton files g ih =>
    rw [publish_all_append]
    show publish _ (tmp_of g) (name_of g) (value_of g) (tmp_of f) = none
    unfold publish
    rw [Function.update_of_ne (htmps g (by simp) f hf).symm]
    by_cases heq : tmp_of f = tmp_of g
    · rw [heq, Function.update_self]
    · rw [Function.update_of_ne heq]
      rcases List.mem_append.mp hf with hf | hf
      · exact ih (fun a ha b hb => htmps a (List.mem_append_left _ ha) b
          (List.mem_append_left _ hb)) hf
      · rw [List.mem_singleton.mp hf] at heq
        exact absurd rfl heq

end PublishAll

end Lib
