import LedgerArchive.Lib.Except

/-! # Two runs of one program

    A fallible program is run twice, over two kinds of state. The runs are
    `Alike` when both return, with related results, or both end in the same
    error, or the second one ends in an error of its own. The relation
    follows a program through its binds, checks and loops, so two runs of a
    `do` block are compared step by step. -/

namespace Lib

variable {ε α β γ δ σ τ : Type}

/-- `x` and `y` return values related by `R`, or fail alike, or `y` fails
    with an error in `own`. -/
inductive Alike (own : ε → Prop) (R : α → β → Prop) : Except ε α → Except ε β → Prop
  | ok {a : α} {b : β} (h : R a b) : Alike own R (.ok a) (.ok b)
  | error (e : ε) : Alike own R (.error e) (.error e)
  | own (x : Except ε α) {e : ε} (h : own e) : Alike own R x (.error e)

variable {own : ε → Prop} {R : α → β → Prop} {Q : γ → δ → Prop}

theorem Alike.mono {R' : α → β → Prop} {x : Except ε α} {y : Except ε β} (h : Alike own R x y)
    (hR : ∀ a b, R a b → R' a b) : Alike own R' x y := by
  cases h with
  | ok h => exact .ok (hR _ _ h)
  | error e => exact .error e
  | own x h => exact .own x h

/-- With what is known of the second run's result. -/
theorem Alike.and_right {P : β → Prop} {x : Except ε α} {y : Except ε β} (h : Alike own R x y)
    (hP : ∀ b, y = .ok b → P b) : Alike own (fun a b => R a b ∧ P b) x y := by
  cases h with
  | ok h => exact .ok ⟨h, hP _ rfl⟩
  | error e => exact .error e
  | own x h => exact .own x h

/-- If the second run has no errors of its own, it returns when the first
    one does. -/
theorem Alike.exists_ok {x : Except ε α} {y : Except ε β} (h : Alike (fun _ => False) R x y)
    {a : α} (hx : x = .ok a) : ∃ b, y = .ok b := by
  cases h with
  | ok h => exact ⟨_, rfl⟩
  | error e => cases hx
  | own x h => exact h.elim

/-- The first run returns when the second one does. -/
theorem Alike.ok_left {x : Except ε α} {y : Except ε β} (h : Alike own R x y) {b : β}
    (hy : y = .ok b) : ∃ a, x = .ok a := by
  cases h with
  | ok h => exact ⟨_, rfl⟩
  | error e => cases hy
  | own x h => cases hy

/-- What both runs compute alike. -/
theorem Alike.refl (x : Except ε α) : Alike own Eq x x := by
  cases x with
  | error e => exact .error e
  | ok a => exact .ok rfl

/-- A first run that cannot fail and a second one that fails only with
    errors of its own. -/
theorem Alike.of_errors {x : Except ε α} {y : Except ε β} (hx : ErrorsIn (fun _ => False) x)
    (hy : ErrorsIn own y) : Alike own (fun _ _ => True) x y := by
  cases x with
  | error e => exact (hx e rfl).elim
  | ok a =>
    cases y with
    | error e => exact .own _ (hy e rfl)
    | ok b => exact .ok trivial

theorem Alike.bind {x : Except ε α} {y : Except ε β} {f : α → Except ε γ} {g : β → Except ε δ}
    (h : Alike own R x y) (hf : ∀ a b, R a b → Alike own Q (f a) (g b)) :
    Alike own Q (x >>= f) (y >>= g) := by
  cases h with
  | ok h => exact hf _ _ h
  | error e => exact .error e
  | own x h => exact .own _ h

/-- A step that both runs take alike. -/
theorem Alike.bind_same {x : Except ε α} {f : α → Except ε γ} {g : α → Except ε δ}
    (hf : ∀ a, Alike own Q (f a) (g a)) : Alike own Q (x >>= f) (x >>= g) := by
  apply (Alike.refl x).bind
  rintro a _ rfl
  exact hf a

theorem Alike.foldlM {Q : σ → τ → Prop} {f : σ → α → Except ε σ} {g : τ → α → Except ε τ}
    {l : List α} {s : σ} {t : τ} (hstep : ∀ s t a, Q s t → Alike own Q (f s a) (g t a))
    (h : Q s t) : Alike own Q (l.foldlM f s) (l.foldlM g t) := by
  induction l generalizing s t with
  | nil => exact .ok h
  | cons a l ih =>
    rw [List.foldlM_cons, List.foldlM_cons]
    exact (hstep s t a h).bind fun s' t' => ih

/-- A loop whose steps return what those of another loop return. -/
theorem foldlM_ok_mono {f g : σ → α → Except ε σ} {l : List α} {s s' : σ}
    (hfg : ∀ a ∈ l, ∀ t t', f t a = .ok t' → g t a = .ok t') (h : l.foldlM f s = .ok s') :
    l.foldlM g s = .ok s' := by
  induction l generalizing s with
  | nil => exact foldlM_nil_ok.mpr (foldlM_nil_ok.mp h)
  | cons a l ih =>
    obtain ⟨t, ht, hl⟩ := foldlM_cons_ok.mp h
    obtain ⟨hfirst, hrest⟩ := List.forall_mem_cons.mp hfg
    exact foldlM_cons_ok.mpr ⟨t, hfirst s t ht, ih hrest hl⟩

/-- If the second run has no errors of its own, the two report the same. -/
theorem Alike.map_eq {p : α → γ} {q : β → γ} {x : Except ε α} {y : Except ε β}
    (h : Alike (fun _ => False) R x y) (hR : ∀ a b, R a b → p a = q b) : x.map p = y.map q := by
  cases h with
  | ok h => exact congrArg Except.ok (hR _ _ h)
  | error e => rfl
  | own x h => exact h.elim

end Lib
