import Mathlib.Logic.Basic

/-! # Loops that may not terminate

A `while` loop of an imperative program is a step function that either goes on
with a new state (`.inl`) or leaves the loop with a result (`.inr`).  `iterate`
runs it on a given number of rounds; `none` means that the rounds did not suffice
(or that a loop nested in the body ran out itself).  A loop *diverges* when no
number of rounds suffices.

The three rules are the usual ones: `iterate_total` (an invariant with a
decreasing measure), `iterate_partial` (an invariant alone, for loops that may
diverge) and `iterate_diverges` (an invariant under which the loop never leaves).
-/

namespace CrossTransfer.Library

variable {σ ρ : Type*}

/-- Run the loop `step` for at most `fuel` rounds. -/
def iterate (step : σ → Option (σ ⊕ ρ)) : Nat → σ → Option ρ
  | 0, _ => none
  | fuel + 1, s =>
    match step s with
    | none => none
    | some (.inl s') => iterate step fuel s'
    | some (.inr r) => some r

section Unfolding

variable {step : σ → Option (σ ⊕ ρ)} {fuel : Nat} {s s' : σ} {r : ρ}

theorem iterate_succ_continue (h : step s = some (.inl s')) :
    iterate step (fuel + 1) s = iterate step fuel s' := by
  simp [iterate, h]

theorem iterate_succ_leave (h : step s = some (.inr r)) :
    iterate step (fuel + 1) s = some r := by
  simp [iterate, h]

/-- A result of the loop comes from a first round that leaves, or from the rest of
    the loop after a first round that goes on. -/
theorem iterate_eq_some_succ (h : iterate step fuel s = some r) :
    ∃ rounds, fuel = rounds + 1 ∧
      (step s = some (.inr r) ∨ ∃ s', step s = some (.inl s') ∧ iterate step rounds s' = some r) := by
  cases fuel with
  | zero => simp [iterate] at h
  | succ rounds =>
    refine ⟨rounds, rfl, ?_⟩
    simp only [iterate] at h
    split at h
    · contradiction
    · rename_i next hstep
      exact .inr ⟨next, hstep, h⟩
    · rename_i result hstep
      rw [hstep, Option.some.inj h]
      exact .inl rfl

end Unfolding

/-- The loop that starts in `s` comes to the head of a round in the given state. -/
inductive Passes (step : σ → Option (σ ⊕ ρ)) (s : σ) : σ → Prop where
  | here : Passes step s s
  | next {t u : σ} (passed : Passes step s t) (goes : step t = some (.inl u)) : Passes step s u

/-- More rounds do not change a result. -/
theorem iterate_mono {step : σ → Option (σ ⊕ ρ)} {fuel fuel' : Nat} {s : σ} {r : ρ}
    (h : iterate step fuel s = some r) (hle : fuel ≤ fuel') :
    iterate step fuel' s = some r := by
  induction fuel generalizing s fuel' with
  | zero => simp [iterate] at h
  | succ rounds ih =>
    obtain ⟨rounds', rfl⟩ : ∃ n, fuel' = n + 1 := ⟨fuel' - 1, by omega⟩
    obtain ⟨n, hn, hleave | ⟨s', hgo, hrest⟩⟩ := iterate_eq_some_succ h
    · exact iterate_succ_leave hleave
    · obtain rfl : rounds = n := by omega
      rw [iterate_succ_continue hgo]
      exact ih hrest (by omega)

/-- A loop whose rounds all return in a second step function too gives the same result there. -/
theorem iterate_refine {step step' : σ → Option (σ ⊕ ρ)}
    (refine : ∀ s out, step s = some out → step' s = some out) {fuel : Nat} {s : σ} {r : ρ}
    (h : iterate step fuel s = some r) : iterate step' fuel s = some r := by
  induction fuel generalizing s with
  | zero => simp [iterate] at h
  | succ fuel ih =>
    obtain ⟨rounds, hrounds, hleave | ⟨s', hgo, hrest⟩⟩ := iterate_eq_some_succ h
    · exact iterate_succ_leave (refine s _ hleave)
    · cases hrounds
      rw [iterate_succ_continue (refine s _ hgo)]
      exact ih hrest

/-- Total correctness: an invariant whose measure drops in every round. -/
theorem iterate_total (step : σ → Option (σ ⊕ ρ)) (Inv : σ → Prop) (measure : σ → Nat)
    (Post : ρ → Prop)
    (round : ∀ s, Inv s →
      (∃ s', step s = some (.inl s') ∧ Inv s' ∧ measure s' < measure s) ∨
      (∃ r, step s = some (.inr r) ∧ Post r)) :
    ∀ fuel s, Inv s → measure s < fuel → ∃ r, iterate step fuel s = some r ∧ Post r := by
  intro fuel
  induction fuel with
  | zero => intro s _ hlt; omega
  | succ rounds ih =>
    intro s hinv hlt
    obtain ⟨s', hgo, hinv', hdrop⟩ | ⟨r, hleave, hpost⟩ := round s hinv
    · rw [iterate_succ_continue hgo]
      exact ih s' hinv' (by omega)
    · exact ⟨r, iterate_succ_leave hleave, hpost⟩

/-- Partial correctness: an invariant that every leaving round turns into the
    postcondition. -/
theorem iterate_partial {step : σ → Option (σ ⊕ ρ)} (Inv : σ → Prop) (Post : ρ → Prop)
    (go : ∀ s s', Inv s → step s = some (.inl s') → Inv s')
    (leave : ∀ s r, Inv s → step s = some (.inr r) → Post r) :
    ∀ fuel s r, Inv s → iterate step fuel s = some r → Post r := by
  intro fuel
  induction fuel with
  | zero => intro s r _ h; simp [iterate] at h
  | succ rounds ih =>
    intro s r hinv h
    obtain ⟨n, hn, hleave | ⟨s', hgo, hrest⟩⟩ := iterate_eq_some_succ h
    · exact leave s r hinv hleave
    · obtain rfl : rounds = n := by omega
      exact ih s' r (go s s' hinv hgo) hrest

/-- Divergence: under the invariant the loop never leaves. -/
theorem iterate_diverges {step : σ → Option (σ ⊕ ρ)} (Inv : σ → Prop)
    (go : ∀ s, Inv s → step s = none ∨ ∃ s', step s = some (.inl s') ∧ Inv s') :
    ∀ fuel s, Inv s → iterate step fuel s = none := by
  intro fuel
  induction fuel with
  | zero => intro s _; rfl
  | succ rounds ih =>
    intro s hinv
    obtain hstuck | ⟨s', hgo, hinv'⟩ := go s hinv
    · simp [iterate, hstuck]
    · rw [iterate_succ_continue hgo]
      exact ih s' hinv'

end CrossTransfer.Library
