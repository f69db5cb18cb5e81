import Mathlib.Data.List.Basic

/-! # Except: taking a successful run apart

    A fallible program that ends in `ok` passed every one of its steps.
    The lemmas split such a run at its binds, checks and loops, once for
    every program written with `do`. `ErrorsIn P` says of a program that
    all its errors are of a kind `P`, and follows a program the same way. -/

namespace Lib

variable {ε α β σ : Type}

theorem bind_eq_ok {x : Except ε α} {f : α → Except ε β} {b : β} :
    (x >>= f) = .ok b ↔ ∃ a, x = .ok a ∧ f a = .ok b := by
  cases x with
  | error e => simp [Bind.bind, Except.bind]
  | ok a => simp [Bind.bind, Except.bind]

theorem bind_of_ok {x : Except ε α} {a : α} (h : x = .ok a) (f : α → Except ε β) :
    (x >>= f) = f a := by
  rw [h]
  rfl

theorem pure_eq_ok {a b : α} : (pure a : Except ε α) = .ok b ↔ a = b := by
  simp [Pure.pure, Except.pure]

theorem toOption_eq_some {x : Except ε α} {a : α} : x.toOption = some a ↔ x = .ok a := by
  cases x with
  | error e => simp [Except.toOption]
  | ok b => simp [Except.toOption]

/-- A run that was seen to return. -/
theorem exists_ok_of_isSome {x : Except ε α} (h : x.toOption.isSome = true) : ∃ a, x = .ok a := by
  cases x with
  | error e => cases h
  | ok a => exact ⟨a, rfl⟩

/-- `if p { bail!(e) }`. -/
def bail_if (p : Prop) [Decidable p] (e : ε) : Except ε Unit :=
  if p then .error e else .ok ()

@[simp] theorem bail_if_eq_ok {p : Prop} [Decidable p] {e : ε} {u : Unit} :
    bail_if p e = .ok u ↔ ¬p := by
  unfold bail_if
  split
  · next h => simp [h]
  · next h => simp [h]

/-- A check that does not hit. -/
theorem bail_if_neg {p : Prop} [Decidable p] (hp : ¬p) (e : ε) (f : Unit → Except ε α) :
    (bail_if p e >>= f) = f () :=
  bind_of_ok (bail_if_eq_ok.mpr hp) f

/-- A check at the head of a program was passed. -/
theorem bail_if_bind_ok {p : Prop} [Decidable p] {e : ε} {f : Unit → Except ε α} {a : α} :
    (bail_if p e >>= f) = .ok a ↔ ¬p ∧ f () = .ok a := by
  rw [bind_eq_ok]
  constructor
  · rintro ⟨u, hu, hf⟩
    exact ⟨bail_if_eq_ok.mp hu, hf⟩
  · rintro ⟨hp, hf⟩
    exact ⟨(), bail_if_eq_ok.mpr hp, hf⟩

/-- `if p { act?; }`. -/
def check_if (p : Bool) (act : Except ε Unit) : Except ε Unit :=
  if p then act else .ok ()

theorem check_if_eq_ok {p : Bool} {act : Except ε Unit} {u : Unit} :
    check_if p act = .ok u ↔ (p = true → act = .ok ()) := by
  cases p <;> simp [check_if]

/-- `o.ok_or(e)?`. -/
def ok_or (o : Option α) (e : ε) : Except ε α :=
  match o with
  | some a => .ok a
  | none => .error e

@[simp] theorem ok_or_eq_ok {o : Option α} {e : ε} {a : α} : ok_or o e = .ok a ↔ o = some a := by
  cases o <;> simp [ok_or]

/-- A loop of checks is passed when every check is. -/
theorem forM_eq_ok {f : α → Except ε Unit} {l : List α} {u : Unit} :
    l.forM f = .ok u ↔ ∀ a ∈ l, f a = .ok () := by
  induction l with
  | nil => simp [Pure.pure, Except.pure]
  | cons a l ih =>
    show (f a >>= fun _ => l.forM f) = .ok u ↔ _
    rw [bind_eq_ok]
    constructor
    · rintro ⟨_, ha, hl⟩ b hb
      rcases List.mem_cons.mp hb with hb | hb
      · exact hb ▸ ha
      · exact ih.mp hl b hb
    · intro h
      exact ⟨(), h a List.mem_cons_self, ih.mpr fun b hb => h b (List.mem_cons_of_mem _ hb)⟩

theorem mapM_nil_ok {f : α → Except ε β} {bs : List β} : ([] : List α).mapM f = .ok bs ↔ bs = [] := by
  rw [List.mapM_nil, pure_eq_ok, eq_comm]

theorem mapM_cons_ok {f : α → Except ε β} {a : α} {l : List α} {bs : List β} :
    (a :: l).mapM f = .ok bs ↔ ∃ b bs', f a = .ok b ∧ l.mapM f = .ok bs' ∧ bs = b :: bs' := by
  rw [List.mapM_cons]
  simp only [bind_eq_ok, pure_eq_ok]
  constructor
  · rintro ⟨b, hb, bs', hbs', rfl⟩
    exact ⟨b, bs', hb, hbs', rfl⟩
  · rintro ⟨b, bs', hb, hbs', rfl⟩
    exact ⟨b, hb, bs', hbs', rfl⟩

theorem mapM_length_ok {f : α → Except ε β} {l : List α} {bs : List β} (h : l.mapM f = .ok bs) :
    bs.length = l.length := by
  induction l generalizing bs with
  | nil =>
    rw [mapM_nil_ok.mp h]
    rfl
  | cons a l ih =>
    obtain ⟨b, bs', -, hbs', rfl⟩ := mapM_cons_ok.mp h
    rw [List.length_cons, List.length_cons, ih hbs']

theorem foldlM_nil_ok {f : σ → α → Except ε σ} {s s' : σ} :
    ([] : List α).foldlM f s = .ok s' ↔ s = s' := by
  rw [List.foldlM_nil, pure_eq_ok]

theorem foldlM_cons_ok {f : σ → α → Except ε σ} {s s' : σ} {a : α} {l : List α} :
    (a :: l).foldlM f s = .ok s' ↔ ∃ t, f s a = .ok t ∧ l.foldlM f t = .ok s' := by
  rw [List.foldlM_cons, bind_eq_ok]

theorem foldlM_append_ok {f : σ → α → Except ε σ} {s s' : σ} {l m : List α} :
    (l ++ m).foldlM f s = .ok s' ↔ ∃ t, l.foldlM f s = .ok t ∧ m.foldlM f t = .ok s' := by
  rw [List.foldlM_append, bind_eq_ok]

/-- A property every step of a loop keeps holds after the loop. -/
theorem foldlM_invariant {f : σ → α → Except ε σ} {P : σ → Prop} {l : List α} {s s' : σ}
    (hstep : ∀ s a s', a ∈ l → P s → f s a = .ok s' → P s') (hs : P s)
    (h : l.foldlM f s = .ok s') : P s' := by
  induction l generalizing s with
  | nil =>
    rw [foldlM_nil_ok] at h
    exact h ▸ hs
  | cons a l ih =>
    obtain ⟨t, ht, hl⟩ := foldlM_cons_ok.mp h
    have hPt : P t := hstep s a t List.mem_cons_self hs ht
    exact ih (fun s b s' hb => hstep s b s' (List.mem_cons_of_mem _ hb)) hPt hl

/-- Every element of a loop that succeeds has its successful step. -/
theorem foldlM_step_ok {f : σ → α → Except ε σ} {l : List α} {s s' : σ}
    (h : l.foldlM f s = .ok s') : ∀ a ∈ l, ∃ t t', f t a = .ok t' := by
  induction l generalizing s with
  | nil => intro a ha; cases ha
  | cons b l ih =>
    obtain ⟨t, ht, hl⟩ := foldlM_cons_ok.mp h
    intro a ha
    cases ha with
    | head => exact ⟨s, t, ht⟩
    | tail _ ha => exact ih hl a ha

/-- A loop whose successful steps are those of `g` ends where `g` does. -/
theorem foldlM_ok_eq_foldl {f : σ → α → Except ε σ} {g : σ → α → σ} {l : List α} {s s' : σ}
    (hg : ∀ a ∈ l, ∀ t t', f t a = .ok t' → t' = g t a) (h : l.foldlM f s = .ok s') :
    s' = l.foldl g s := by
  induction l generalizing s with
  | nil => exact (foldlM_nil_ok.mp h).symm
  | cons a l ih =>
    obtain ⟨t, ht, hl⟩ := foldlM_cons_ok.mp h
    have hta := hg a List.mem_cons_self s t ht
    subst hta
    exact ih (fun b hb => hg b (List.mem_cons_of_mem _ hb)) hl

/-- A loop whose steps all succeed succeeds. -/
theorem foldlM_eq_ok_foldl {f : σ → α → Except ε σ} {g : σ → α → σ} {l : List α} {s : σ}
    (hg : ∀ a ∈ l, ∀ t, f t a = .ok (g t a)) : l.foldlM f s = .ok (l.foldl g s) := by
  induction l generalizing s with
  | nil => exact foldlM_nil_ok.mpr rfl
  | cons a l ih =>
    refine foldlM_cons_ok.mpr ⟨g s a, hg a List.mem_cons_self s, ?_⟩
    exact ih fun b hb => hg b (List.mem_cons_of_mem _ hb)

/-- A loop whose steps can all be taken comes to its end. -/
theorem foldlM_exists_ok {f : σ → α → Except ε σ} {l : List α} {s : σ}
    (hf : ∀ a ∈ l, ∀ t, ∃ t', f t a = .ok t') : ∃ s', l.foldlM f s = .ok s' := by
  induction l generalizing s with
  | nil => exact ⟨s, foldlM_nil_ok.mpr rfl⟩
  | cons a l ih =>
    obtain ⟨t, ht⟩ := hf a List.mem_cons_self s
    obtain ⟨s', hs'⟩ := ih (s := t) fun b hb => hf b (List.mem_cons_of_mem _ hb)
    exact ⟨s', foldlM_cons_ok.mpr ⟨t, ht, hs'⟩⟩

/-- A loop that collects what is wrong returns with nothing wrong when
    nothing was wrong before and with no element. -/
theorem foldlM_exists_iff {f : σ → α → Except ε σ} {P : σ → Prop} {Q : α → Prop}
    (hf : ∀ s a, (∃ t, f s a = .ok t ∧ P t) ↔ P s ∧ Q a) (l : List α) (s : σ) :
    (∃ t, l.foldlM f s = .ok t ∧ P t) ↔ P s ∧ ∀ a ∈ l, Q a := by
  induction l generalizing s with
  | nil => simp [Pure.pure, Except.pure]
  | cons a l ih =>
    rw [List.forall_mem_cons, ← and_assoc, ← hf]
    constructor
    · rintro ⟨t, ht, hP⟩
      obtain ⟨u, hu, ht⟩ := foldlM_cons_ok.mp ht
      obtain ⟨hPu, hl⟩ := (ih u).mp ⟨t, ht, hP⟩
      exact ⟨⟨u, hu, hPu⟩, hl⟩
    · rintro ⟨⟨u, hu, hPu⟩, hl⟩
      obtain ⟨t, ht, hP⟩ := (ih u).mpr ⟨hPu, hl⟩
      exact ⟨t, foldlM_cons_ok.mpr ⟨u, hu, ht⟩, hP⟩

/-- A loop that computes a value in each round and takes it in: all values
    can be computed, and they are taken in one after the other. -/
theorem foldlM_take_in_ok {f : α → Except ε β} {g : σ → β → σ} {l : List α} {s s' : σ} :
    l.foldlM (fun s a => do let b ← f a; pure (g s b)) s = .ok s' ↔
      ∃ bs : List β, l.map f = bs.map .ok ∧ s' = bs.foldl g s := by
  induction l generalizing s with
  | nil =>
    rw [foldlM_nil_ok]
    constructor
    · rintro rfl
      exact ⟨[], rfl, rfl⟩
    · rintro ⟨bs, hbs, rfl⟩
      rw [List.map_eq_nil_iff.mp hbs.symm]
      rfl
  | cons a l ih =>
    rw [foldlM_cons_ok]
    constructor
    · rintro ⟨t, ht, hl⟩
      obtain ⟨b, hb, ht⟩ := bind_eq_ok.mp ht
      rw [← pure_eq_ok.mp ht] at hl
      obtain ⟨bs, hbs, rfl⟩ := ih.mp hl
      exact ⟨b :: bs, by rw [List.map_cons, List.map_cons, hb, hbs], rfl⟩
    · rintro ⟨bs, hbs, rfl⟩
      cases bs with
      | nil => cases hbs
      | cons b bs =>
        rw [List.map_cons, List.map_cons, List.cons.injEq] at hbs
        exact ⟨g s b, bind_eq_ok.mpr ⟨b, hbs.1, rfl⟩, ih.mpr ⟨bs, hbs.2, rfl⟩⟩

/-- Appending to two lists at every step. -/
theorem foldl_append_pair {γ δ : Type} (f : α → γ) (g : α → List δ) (l : List α) (a : List γ)
    (b : List δ) :
    l.foldl (fun acc x => (acc.1 ++ [f x], acc.2 ++ g x)) (a, b) =
      (a ++ l.map f, b ++ l.flatMap g) := by
  induction l generalizing a b with
  | nil => simp
  | cons x l ih => simp [List.foldl_cons, ih]

/-- What a step makes true stays true to the end of a loop. -/
theorem foldl_or_iff {g : σ → α → σ} (P : σ → Prop) {Q : α → Prop}
    (hg : ∀ s a, P (g s a) ↔ P s ∨ Q a) (l : List α) (s : σ) :
    P (l.foldl g s) ↔ P s ∨ ∃ a ∈ l, Q a := by
  induction l generalizing s with
  | nil => simp
  | cons a l ih =>
    rw [List.foldl_cons, ih, hg, List.exists_mem_cons_iff, or_assoc]

/-- A loop that keeps the last value that an element gives: no element gives one. -/
theorem foldl_or_none {f : α → Option β} {l : List α} {o : Option β} (h : ∀ a ∈ l, f a = none) :
    l.foldl (fun o a => (f a).or o) o = o := by
  induction l with
  | nil => rfl
  | cons a l ih =>
    obtain ⟨ha, hl⟩ := List.forall_mem_cons.mp h
    rw [List.foldl_cons, ha, Option.none_or, ih hl]

/-- The elements that give a value all give the same one. -/
theorem foldl_or_once {f : α → Option β} {l : List α} {o : Option β} {r : β}
    (h : ∀ a ∈ l, f a = none ∨ f a = some r)
    (hr : o = some r ∨ ∃ a ∈ l, f a = some r) :
    l.foldl (fun o a => (f a).or o) o = some r := by
  induction l generalizing o with
  | nil =>
    rcases hr with hr | ⟨a, ha, -⟩
    · exact hr
    · cases ha
  | cons a l ih =>
    obtain ⟨ha, hl⟩ := List.forall_mem_cons.mp h
    rw [List.foldl_cons]
    apply ih hl
    rcases ha with ha | ha
    · rw [ha, Option.none_or]
      rw [List.exists_mem_cons_iff, ha] at hr
      simpa using hr
    · rw [ha]
      exact .inl rfl

/-! ## Programs with errors of one kind -/

/-- Every error that `x` can end in is in `P`. -/
def ErrorsIn (P : ε → Prop) (x : Except ε α) : Prop :=
  ∀ e, x = .error e → P e

section ErrorsIn

variable {P : ε → Prop}

theorem errorsIn_ok (a : α) : ErrorsIn P (.ok a : Except ε α) := by
  intro e h
  cases h

theorem errorsIn_pure (a : α) : ErrorsIn P (pure a : Except ε α) := errorsIn_ok a

theorem errorsIn_error {e : ε} : ErrorsIn P (.error e : Except ε α) ↔ P e := by
  constructor
  · intro h
    exact h e rfl
  · intro he e' h
    cases h
    exact he

theorem ErrorsIn.bind {x : Except ε α} {f : α → Except ε β} (hx : ErrorsIn P x)
    (hf : ∀ a, x = .ok a → ErrorsIn P (f a)) : ErrorsIn P (x >>= f) := by
  cases x with
  | error e => exact errorsIn_error.mpr (hx e rfl)
  | ok a => exact hf a rfl

/-- A program whose first part fails has that part's errors only. -/
theorem ErrorsIn.of_bind {x : Except ε α} {f : α → Except ε β} (h : ErrorsIn P (x >>= f)) :
    ErrorsIn P x := by
  intro e hx
  apply h e
  rw [hx]
  rfl

theorem ErrorsIn.of_bind_ok {x : Except ε α} {f : α → Except ε β} {a : α}
    (h : ErrorsIn P (x >>= f)) (hx : x = .ok a) : ErrorsIn P (f a) := by
  rw [hx] at h
  exact h

theorem errorsIn_bail_if {p : Prop} [Decidable p] {e : ε} (he : P e) :
    ErrorsIn P (bail_if p e) := by
  unfold bail_if
  split
  · exact errorsIn_error.mpr he
  · exact errorsIn_ok ()

theorem errorsIn_ok_or {o : Option α} {e : ε} (he : P e) : ErrorsIn P (ok_or o e) := by
  cases o with
  | none => exact errorsIn_error.mpr he
  | some a => exact errorsIn_ok a

theorem ErrorsIn.check_if {p : Bool} {act : Except ε Unit} (h : p = true → ErrorsIn P act) :
    ErrorsIn P (check_if p act) := by
  cases p with
  | true => exact h rfl
  | false => exact errorsIn_ok ()

theorem errorsIn_foldlM {f : σ → α → Except ε σ} {l : List α} {s : σ}
    (hf : ∀ a ∈ l, ∀ t, ErrorsIn P (f t a)) : ErrorsIn P (l.foldlM f s) := by
  induction l generalizing s with
  | nil => exact errorsIn_pure s
  | cons a l ih =>
    rw [List.foldlM_cons]
    apply ErrorsIn.bind (hf a List.mem_cons_self s)
    intro t _
    exact ih fun b hb => hf b (List.mem_cons_of_mem _ hb)

theorem errorsIn_forM {f : α → Except ε Unit} {l : List α} (hf : ∀ a ∈ l, ErrorsIn P (f a)) :
    ErrorsIn P (l.forM f) := by
  induction l with
  | nil => exact errorsIn_ok ()
  | cons a l ih =>
    show ErrorsIn P (f a >>= fun _ => l.forM f)
    apply ErrorsIn.bind (hf a List.mem_cons_self)
    intro _ _
    exact ih fun b hb => hf b (List.mem_cons_of_mem _ hb)

end ErrorsIn

end Lib
