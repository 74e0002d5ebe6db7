import Mathlib.Logic.Basic

/-!
# Computations that may fail

Code that throws, or does not return, is in `Except`. A result of a sequence of
calls is taken apart call by call (`bind_ok`) and put together again
(`ok_bind`).
-/
namespace NetworksLab

variable {ε α β : Type} {x : Except ε α}

theorem bind_ok {f : α → Except ε β} {b : β} (h : (x >>= f) = .ok b) :
    ∃ a, x = .ok a ∧ f a = .ok b := by
  cases x with
  | error e => cases h
  | ok a => exact ⟨a, rfl, h⟩

theorem ok_bind {a : α} (h : x = .ok a) (f : α → Except ε β) : (x >>= f) = f a := by
  subst h
  rfl

/-- Behind the same call, continuations that agree up to `h`. -/
theorem map_bind_congr {γ : Type} {f g : α → Except ε β} {h : β → γ}
    (hfg : ∀ a, (f a).map h = (g a).map h) : (x >>= f).map h = (x >>= g).map h := by
  cases x with
  | error e => rfl
  | ok a => exact hfg a

/-- A continuation that looks at no more than `h` of a result. -/
theorem bind_eq_of_map_eq {γ : Type} {y : Except ε α} {h : α → γ} {f : α → Except ε β} (hxy : x.map h = y.map h)
    (hf : ∀ a b, h a = h b → f a = f b) : (x >>= f) = (y >>= f) := by
  cases x with
  | error e =>
    cases y with
    | error e' => cases hxy; rfl
    | ok b => cases hxy
  | ok a =>
    cases y with
    | error e => cases hxy
    | ok b => exact hf a b (Except.ok.inj hxy)

end NetworksLab
