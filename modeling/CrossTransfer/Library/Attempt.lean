import Mathlib.Logic.Basic

/-! # Attempts

An attempt works on a state and says whether it has succeeded; one that has not leaves the state as
far as it came. `none` is an attempt that has no outcome at all, because it does what it must not do or
never ends. `Ensures` is the total correctness of an attempt.
-/

namespace CrossTransfer.Library

variable {σ τ : Type*}

/-- Whether it succeeded, and the state afterwards. -/
abbrev Attempt (σ : Type*) := Option (Bool × σ)

namespace Attempt

/-- The first attempt, and if it succeeds the second one. -/
def andThen (a : Attempt σ) (f : σ → Attempt σ) : Attempt σ :=
  a.bind fun (ok, s) => if ok then f s else some (false, s)

/-- There is an outcome, and after success the state is as stated. -/
def Ensures (a : Attempt σ) (P : σ → Prop) : Prop :=
  ∃ ok s, a = some (ok, s) ∧ (ok = true → P s)

variable {a : Attempt σ} {f : σ → Attempt σ} {P Q : σ → Prop} {s : σ}

theorem ensures_success (h : P s) : Ensures (some (true, s)) P := ⟨true, s, rfl, fun _ => h⟩

theorem ensures_failure (s : σ) : Ensures (some (false, s)) P :=
  ⟨false, s, rfl, fun h => absurd h Bool.false_ne_true⟩

theorem Ensures.mono (h : a.Ensures P) (himp : ∀ s, P s → Q s) : a.Ensures Q := by
  obtain ⟨ok, s, ha, hs⟩ := h
  exact ⟨ok, s, ha, fun hok => himp s (hs hok)⟩

theorem Ensures.andThen (h : a.Ensures P) (hf : ∀ s, P s → (f s).Ensures Q) :
    (a.andThen f).Ensures Q := by
  obtain ⟨ok, s, rfl, hs⟩ := h
  cases ok with
  | false => exact ensures_failure s
  | true => exact hf s (hs rfl)

/-- A value that is there is read. -/
theorem ensures_bind {v : τ} {r : Option τ} {g : τ → Attempt σ} (hr : r = some v)
    (h : (g v).Ensures P) : Ensures (r.bind g) P := by
  rw [hr]
  exact h

@[simp] theorem success_andThen : andThen (some (true, s)) f = f s := rfl

@[simp] theorem failure_andThen : andThen (some (false, s)) f = some (false, s) := rfl

end Attempt

end CrossTransfer.Library
