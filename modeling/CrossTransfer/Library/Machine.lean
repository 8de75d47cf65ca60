import Mathlib.Data.List.Basic

/-! # Runs of a state machine

A machine is an initial state and a partial step function; `step s a = none` says
that action `a` is not enabled in `s`.  Interleavings of threads, of parties and of
the network are lists of actions: whoever moves next is part of the action.

`M.Run ok as s` says that the actions `as`, oldest first, lead from the initial
state to `s` and that each of them satisfied the side condition `ok` in the state
it was taken from.  With `ok := fun _ _ => True` these are all runs.

Safety properties come from `Run.invariant`; properties that speak about what
happened before (`there was a moment at which …`) from `Run.history`, whose
invariant also sees the actions taken so far.
-/

namespace CrossTransfer.Library

/-- A deterministic machine: all choice is in the action. -/
structure Machine (σ α : Type*) where
  init : σ
  step : σ → α → Option σ

namespace Machine

variable {σ α : Type*} (M : Machine σ α)

/-- Take the actions one after another; `none` when one of them is not enabled. -/
def exec : List α → σ → Option σ
  | [], s => some s
  | a :: as, s => (M.step s a).bind (exec as)

/-- The runs of the machine all of whose steps satisfy `ok`. -/
inductive Run (ok : σ → α → Prop) : List α → σ → Prop
  | init : Run ok [] M.init
  | step {as s a s'} : Run ok as s → ok s a → M.step s a = some s' → Run ok (as ++ [a]) s'

/-- No side condition: every run. -/
def anyStep : σ → α → Prop := fun _ _ => True

variable {M} {ok : σ → α → Prop}

/-- What holds initially and is kept by every allowed step holds in every state reached. -/
theorem Run.invariant (Inv : σ → Prop) (start : Inv M.init)
    (keep : ∀ s a s', Inv s → ok s a → M.step s a = some s' → Inv s')
    {as : List α} {s : σ} (run : M.Run ok as s) : Inv s := by
  induction run with
  | init => exact start
  | step _ hok hstep ih => exact keep _ _ _ ih hok hstep

/-- The invariant may speak about the actions taken so far, and the step may use that
    its source state was reached by them. -/
theorem Run.history (Inv : List α → σ → Prop) (start : Inv [] M.init)
    (keep : ∀ as s a s', M.Run ok as s → Inv as s → ok s a → M.step s a = some s' →
      Inv (as ++ [a]) s')
    {as : List α} {s : σ} (run : M.Run ok as s) : Inv as s := by
  induction run with
  | init => exact start
  | step hrun hok hstep ih => exact keep _ _ _ _ hrun ih hok hstep

/-- A run with a side condition is a run with any weaker one. -/
theorem Run.mono {ok' : σ → α → Prop} (weaker : ∀ s a, ok s a → ok' s a)
    {as : List α} {s : σ} (run : M.Run ok as s) : M.Run ok' as s := by
  induction run with
  | init => exact .init
  | step _ hok hstep ih => exact .step ih (weaker _ _ hok) hstep

/-- Executing a list of actions extends a run, if each of them is allowed everywhere. -/
theorem Run.extend {as bs : List α} {s s' : σ} (run : M.Run ok as s)
    (hok : ∀ b ∈ bs, ∀ t, ok t b) (h : M.exec bs s = some s') : M.Run ok (as ++ bs) s' := by
  induction bs generalizing as s with
  | nil =>
    obtain rfl : s = s' := Option.some.inj h
    simpa using run
  | cons b bs ih =>
    simp only [exec, Option.bind_eq_some_iff] at h
    obtain ⟨mid, hstep, hrest⟩ := h
    rw [List.forall_mem_cons] at hok
    have := ih (Run.step run (hok.1 s) hstep) hok.2 hrest
    simpa using this

theorem Run.of_exec {as : List α} {s : σ} (hok : ∀ a ∈ as, ∀ t, ok t a)
    (h : M.exec as M.init = some s) : M.Run ok as s := by
  simpa using Run.init.extend hok h

theorem run_of_exec {as : List α} {s : σ} (h : M.exec as M.init = some s) :
    M.Run anyStep as s :=
  .of_exec (fun _ _ _ => trivial) h

theorem exec_append (as bs : List α) (s : σ) :
    M.exec (as ++ bs) s = (M.exec as s).bind (M.exec bs) := by
  induction as generalizing s with
  | nil => rfl
  | cons a as ih =>
    simp only [List.cons_append, exec, Option.bind_assoc]
    exact congrArg _ (funext ih)

theorem exec_append_some {as bs : List α} {s s' : σ} (h : M.exec (as ++ bs) s = some s') :
    ∃ mid, M.exec as s = some mid ∧ M.exec bs mid = some s' := by
  rw [exec_append, Option.bind_eq_some_iff] at h
  exact h

theorem Run.exec_eq {as : List α} {s : σ} (run : M.Run ok as s) : M.exec as M.init = some s := by
  induction run with
  | init => rfl
  | step _ _ hstep ih => simp [exec_append, ih, exec, hstep]

/-- Whether all steps can be taken and pass a test. -/
def passes (test : σ → α → Bool) : List α → σ → Bool
  | [], _ => true
  | a :: as, s => test s a && (M.step s a).any (passes test as)

theorem Run.of_passes {test : σ → α → Bool} (sound : ∀ s a, test s a = true → ok s a) {as : List α}
    {s : σ} (hexec : M.exec as M.init = some s) (h : M.passes test as M.init = true) :
    M.Run ok as s := by
  have extend : ∀ {bs as : List α} {t : σ}, M.Run ok as t → M.exec bs t = some s →
      M.passes test bs t = true → M.Run ok (as ++ bs) s := by
    intro bs
    induction bs with
    | nil =>
      intro as t run hexec _
      obtain rfl : t = s := Option.some.inj hexec
      simpa using run
    | cons b bs ih =>
      intro as t run hexec h
      simp only [exec, Option.bind_eq_some_iff] at hexec
      obtain ⟨mid, hstep, hrest⟩ := hexec
      simp only [passes, hstep, Option.any_some, Bool.and_eq_true] at h
      have := ih (Run.step run (sound t b h.1) hstep) hrest h.2
      simpa using this
  simpa using extend Run.init hexec h

/-! ## What the steps contribute -/

/-- What the steps from `s` on add up to, if the step `a` in the state `s` contributes `f s a`. -/
def collect {β : Type*} (M : Machine σ α) (f : σ → α → List β) : List α → σ → List β
  | [], _ => []
  | a :: as, s => f s a ++ (M.step s a).elim [] (M.collect f as)

theorem collect_append {β : Type*} {f : σ → α → List β} {as bs : List α} {s s' : σ}
    (h : M.exec as s = some s') : M.collect f (as ++ bs) s = M.collect f as s ++ M.collect f bs s' := by
  induction as generalizing s with
  | nil =>
    obtain rfl := Option.some.inj h
    rfl
  | cons a as ih =>
    simp only [exec, Option.bind_eq_some_iff] at h
    obtain ⟨mid, hstep, hrest⟩ := h
    simp [collect, hstep, ih hrest]

theorem collect_snoc {β : Type*} {f : σ → α → List β} {as : List α} {s s' : σ}
    (h : M.exec as s = some s') (a : α) : M.collect f (as ++ [a]) s = M.collect f as s ++ f s' a := by
  have hlast : M.collect f [a] s' = f s' a := by
    cases hstep : M.step s' a with
    | none => simp [collect, hstep]
    | some s'' => simp [collect, hstep]
  rw [collect_append h, hlast]

/-! ## What happened on the way -/

/-- The run `as` went from `s` to `s'` by the action `a`. -/
def Took (M : Machine σ α) (as : List α) (s : σ) (a : α) (s' : σ) : Prop :=
  ∃ before, before ++ [a] <+: as ∧ M.Run anyStep before s ∧ M.step s a = some s'

theorem Took.mono {as bs : List α} {s s' : σ} {a : α} (h : M.Took as s a s') (hbs : as <+: bs) :
    M.Took bs s a s' := by
  obtain ⟨before, hpre, hrun, hstep⟩ := h
  exact ⟨before, hpre.trans hbs, hrun, hstep⟩

theorem Run.took {as : List α} {s s' : σ} {a : α} (run : M.Run anyStep as s)
    (h : M.step s a = some s') : M.Took (as ++ [a]) s a s' :=
  ⟨as, List.prefix_rfl, run, h⟩

/-- The run `as` passed through `s`. -/
def Visited (M : Machine σ α) (as : List α) (s : σ) : Prop :=
  ∃ before, before <+: as ∧ M.Run anyStep before s

theorem Visited.mono {as bs : List α} {s : σ} (h : M.Visited as s) (hbs : as <+: bs) :
    M.Visited bs s := by
  obtain ⟨before, hpre, hrun⟩ := h
  exact ⟨before, hpre.trans hbs, hrun⟩

theorem Run.visited {as : List α} {s : σ} (run : M.Run anyStep as s) : M.Visited as s :=
  ⟨as, List.prefix_rfl, run⟩

theorem Took.visited {as : List α} {s s' : σ} {a : α} (h : M.Took as s a s') : M.Visited as s := by
  obtain ⟨before, hpre, hrun, -⟩ := h
  exact ⟨before, (List.prefix_append ..).trans hpre, hrun⟩

/-- Before the first step a run has passed through the initial state only. -/
theorem Visited.nil {s : σ} (h : M.Visited [] s) : s = M.init := by
  obtain ⟨before, hpre, hrun⟩ := h
  obtain rfl := List.prefix_nil.mp hpre
  exact Option.some.inj hrun.exec_eq.symm

/-- One step adds one state to those a run has passed through. -/
theorem Visited.snoc {as : List α} {a : α} {s s' t : σ} (h : M.Visited (as ++ [a]) t)
    (run : M.Run ok as s) (hstep : M.step s a = some s') : M.Visited as t ∨ t = s' := by
  obtain ⟨before, hpre, hrun⟩ := h
  obtain rfl | hpre := List.prefix_concat_iff.mp hpre
  · right
    have hexec := hrun.exec_eq
    rw [exec_append, run.exec_eq] at hexec
    simpa [exec, hstep] using hexec.symm
  · exact .inl ⟨before, hpre, hrun⟩

/-- One step adds one step to those a run has taken. -/
theorem Took.snoc {as : List α} {a b : α} {s s' t t' : σ} (h : M.Took (as ++ [a]) t b t')
    (run : M.Run ok as s) (hstep : M.step s a = some s') :
    M.Took as t b t' ∨ t = s ∧ b = a ∧ t' = s' := by
  obtain ⟨before, hpre, hrun, htook⟩ := h
  obtain hlast | hpre := List.prefix_concat_iff.mp hpre
  · right
    obtain ⟨rfl, heq⟩ := List.append_inj' hlast rfl
    obtain rfl : b = a := List.singleton_inj.mp heq
    obtain rfl := Option.some.inj (hrun.exec_eq.symm.trans run.exec_eq)
    exact ⟨rfl, rfl, Option.some.inj (htook.symm.trans hstep)⟩
  · exact .inl ⟨before, hpre, hrun, htook⟩

/-! ## Runs in which a side condition is necessary -/

/-- The last step of a run. -/
theorem Run.of_snoc {as : List α} {a : α} {s s' : σ} (h : M.Run ok (as ++ [a]) s')
    (run : M.Run anyStep as s) : M.Run ok as s ∧ ok s a := by
  generalize hbs : as ++ [a] = bs at h
  cases h with
  | init => simp at hbs
  | step hrun hok hstep =>
    obtain ⟨rfl, heq⟩ := List.append_inj' hbs rfl
    obtain rfl : a = _ := List.singleton_inj.mp heq
    obtain rfl := Option.some.inj (hrun.exec_eq.symm.trans run.exec_eq)
    exact ⟨hrun, hok⟩

/-- If a step keeps `P` exactly when the side condition holds, then a run passes through states
    with `P` only exactly when all its steps meet the condition. -/
theorem Run.forall_visited_iff {P : σ → Prop} (start : P M.init)
    (keep : ∀ as s a s', M.Run anyStep as s → P s → M.step s a = some s' → (P s' ↔ ok s a))
    {as : List α} {s : σ} (run : M.Run anyStep as s) :
    (∀ t, M.Visited as t → P t) ↔ M.Run ok as s := by
  induction run with
  | init =>
    refine ⟨fun _ => .init, fun _ t ht => ?_⟩
    rw [ht.nil]
    exact start
  | @step as s a s' hrun _ hstep ih =>
    constructor
    · intro hall
      have hbefore := ih.mp fun t ht => hall t (ht.mono (List.prefix_append ..))
      have hs := hall s (hrun.visited.mono (List.prefix_append ..))
      have hs' := hall s' (Run.step hrun trivial hstep).visited
      exact hbefore.step ((keep as s a s' hrun hs hstep).mp hs') hstep
    · intro hok t ht
      obtain ⟨hbefore, ha⟩ := hok.of_snoc hrun
      have hall := ih.mpr hbefore
      obtain ht | rfl := ht.snoc hrun hstep
      · exact hall t ht
      · exact (keep as s a t hrun (hall s hrun.visited) hstep).mpr ha

/-- If a step has the property `Q` exactly when the side condition holds, then all steps of a run
    have it exactly when they all meet the condition. -/
theorem Run.forall_took_iff {Q : σ → α → σ → Prop}
    (decides : ∀ as s a s', M.Run anyStep as s → M.step s a = some s' → (Q s a s' ↔ ok s a))
    {as : List α} {s : σ} (run : M.Run anyStep as s) :
    (∀ t b t', M.Took as t b t' → Q t b t') ↔ M.Run ok as s := by
  induction run with
  | init =>
    refine ⟨fun _ => .init, fun _ t b t' ht => ?_⟩
    obtain ⟨before, hpre, -⟩ := ht
    simp at hpre
  | @step as s a s' hrun _ hstep ih =>
    constructor
    · intro hall
      have hbefore := ih.mp fun t b t' ht => hall t b t' (ht.mono (List.prefix_append ..))
      exact hbefore.step ((decides as s a s' hrun hstep).mp (hall s a s' (hrun.took hstep))) hstep
    · intro hok t b t' ht
      obtain ⟨hbefore, ha⟩ := hok.of_snoc hrun
      obtain ht | ⟨rfl, rfl, rfl⟩ := ht.snoc hrun hstep
      · exact ih.mpr hbefore t b t' ht
      · exact (decides as t b t' hrun hstep).mpr ha

end Machine

end CrossTransfer.Library
