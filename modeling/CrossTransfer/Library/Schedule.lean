import CrossTransfer.Library.Machine
import Mathlib.Order.WellFounded

/-! # Infinite interleavings

A schedule is an infinite sequence of enabled actions. That a thread comes to the end of a loop
whatever the other threads do in between is a statement about schedules: the thread is scheduled
again and again (`helpful`), each of its steps lowers a rank, and no step of another thread raises
it (`Schedule.eventually`).

`log` collects what the steps from one time to another contribute.
-/

namespace CrossTransfer.Library

namespace Machine

variable {σ α β ρ : Type*} {M : Machine σ α}

structure Schedule (M : Machine σ α) where
  state : Nat → σ
  act : Nat → α
  init : state 0 = M.init
  step : ∀ n, M.step (state n) (act n) = some (state (n + 1))

namespace Schedule

variable (s : M.Schedule)

/-- The schedule of a strategy that always finds an enabled action. -/
def follow (M : Machine σ α) (strategy : σ → α) (next : σ → σ)
    (enabled : ∀ s, M.step s (strategy s) = some (next s)) : M.Schedule where
  state n := next^[n] M.init
  act n := strategy (next^[n] M.init)
  init := rfl
  step n := by
    rw [enabled, Function.iterate_succ_apply']

/-- What comes after the first `k` steps never ends if the rank could drop for ever. -/
theorem eventually [Preorder ρ] [WellFoundedLT ρ] (rank : σ → ρ) (goal helpful : Nat → Prop) {k : Nat}
    (kept : ∀ n, k ≤ n → ¬goal n → ¬goal (n + 1) → rank (s.state (n + 1)) ≤ rank (s.state n))
    (drops : ∀ n, k ≤ n → ¬goal n → ¬goal (n + 1) → helpful n →
      rank (s.state (n + 1)) < rank (s.state n))
    (fair : ∀ n, k ≤ n → (∀ j, k ≤ j → j ≤ n → ¬goal j) → ∃ m, n ≤ m ∧ helpful m) :
    ∃ n, k ≤ n ∧ goal n := by
  by_contra hnever
  have never : ∀ n, k ≤ n → ¬goal n := fun n hkn hgoal => hnever ⟨n, hkn, hgoal⟩
  have antitone : ∀ n m, k ≤ n → n ≤ m → rank (s.state m) ≤ rank (s.state n) := by
    intro n m hkn hnm
    induction m, hnm using Nat.le_induction with
    | base => exact le_rfl
    | succ m hnm ih =>
      exact (kept m (hkn.trans hnm) (never _ (by omega)) (never _ (by omega))).trans ih
  -- From each rank that is reached the schedule comes to a lower one.
  have lower : ∀ (r : ρ) (n : Nat), k ≤ n → rank (s.state n) = r → False := by
    intro r
    induction r using WellFoundedLT.induction with
    | ind r ih =>
      rintro n hkn rfl
      obtain ⟨m, hnm, hhelp⟩ := fair n hkn fun j hkj _ => never j hkj
      have hkm := hkn.trans hnm
      have hdrop := drops m hkm (never m hkm) (never _ (by omega)) hhelp
      exact ih _ (hdrop.trans_le (antitone n m hkn hnm)) (m + 1) (by omega) rfl
  exact lower _ k le_rfl rfl

/-! ## What a stretch of a schedule contributes -/

/-- What the steps from time `k` up to time `n` add up to. -/
def log (f : σ → α → List β) (k n : Nat) : List β :=
  (List.range' k (n - k)).flatMap fun j => f (s.state j) (s.act j)

@[simp] theorem log_self (f : σ → α → List β) (k : Nat) : s.log f k k = [] := by
  simp [log]

theorem log_succ (f : σ → α → List β) {k n : Nat} (h : k ≤ n) :
    s.log f k (n + 1) = s.log f k n ++ f (s.state n) (s.act n) := by
  have hlen : n + 1 - k = (n - k) + 1 := by omega
  rw [log, hlen, List.range'_1_concat, List.flatMap_append, Nat.add_sub_cancel' h]
  simp [log]

theorem mem_log {f : σ → α → List β} {k n : Nat} {x : β} :
    x ∈ s.log f k n ↔ ∃ j, k ≤ j ∧ j < n ∧ x ∈ f (s.state j) (s.act j) := by
  simp only [log, List.mem_flatMap, List.mem_range'_1]
  constructor
  · rintro ⟨j, hj, hx⟩
    exact ⟨j, hj.1, by omega, hx⟩
  · rintro ⟨j, hkj, hjn, hx⟩
    exact ⟨j, ⟨hkj, by omega⟩, hx⟩

end Schedule

end Machine

end CrossTransfer.Library
