/-
# Runs of a deterministic system with refused events

A system is a step function `step : σ → ε → Option σ`: the event `e` either leads
from `s` to one next state, or is refused (`none`).  A run feeds a list of events to
the system, one after the other.  The rules below package the inductions on a run
once: an invariant, an invariant that may also look at the events already fed,
an exact account of a monitor that each step can only spoil, of a property of every
state on the way, and of the agreement of two systems that see the same events.
-/
import Mathlib

namespace Runs

variable {σ ε : Type*} (step : σ → ε → Option σ)

/-! ## Runs -/

/-- The state after feeding `es` to the system in `s`, if no event was refused. -/
def run : σ → List ε → Option σ
  | s, [] => some s
  | s, e :: es => (step s e).bind fun t => run t es

theorem run_cons (s : σ) (e : ε) (es : List ε) :
    run step s (e :: es) = (step s e).bind fun t => run step t es := rfl

theorem run_cons_eq_some {s u : σ} {e : ε} {es : List ε} :
    run step s (e :: es) = some u ↔ ∃ t, step s e = some t ∧ run step t es = some u := by
  rw [run_cons, Option.bind_eq_some_iff]

/-- Every step of the run on `es` from `s` meets the condition `C`, which may look at
the state before the step and at its event. -/
def StepsMeet (C : σ → ε → Prop) : σ → List ε → Prop
  | _, [] => True
  | s, e :: es => C s e ∧ ∀ t ∈ step s e, StepsMeet C t es

instance decidableStepsMeet {C : σ → ε → Prop} [∀ s e, Decidable (C s e)] :
    ∀ (s : σ) (es : List ε), Decidable (StepsMeet step C s es)
  | _, [] => isTrue trivial
  | s, e :: es =>
    match h : step s e with
    | none => decidable_of_iff (C s e) (by simp [StepsMeet, h])
    | some t =>
      have : Decidable (StepsMeet step C t es) := decidableStepsMeet t es
      decidable_of_iff (C s e ∧ StepsMeet step C t es) (by simp [StepsMeet, h])

/-- A condition that always holds is met by every step. -/
theorem stepsMeet_of_forall {C : σ → ε → Prop} (h : ∀ s e, C s e) (s : σ) (es : List ε) :
    StepsMeet step C s es := by
  induction es generalizing s with
  | nil => trivial
  | cons e es ih => exact ⟨h s e, fun t _ => ih t⟩

/-- A condition that follows from an invariant of every step is met by every step. -/
theorem stepsMeet_of_invariant {I : σ → Prop} {C : σ → ε → Prop}
    (hinv : ∀ s e t, I s → step s e = some t → I t) (hC : ∀ s e, I s → C s e)
    {s : σ} (hI : I s) (es : List ε) : StepsMeet step C s es := by
  induction es generalizing s with
  | nil => trivial
  | cons e es ih => exact ⟨hC s e hI, fun t ht => ih (hinv s e t hI ht)⟩

/-- Under an invariant, conditions that are the same at every step are met by the same
runs. -/
theorem stepsMeet_congr {I : σ → Prop} {C D : σ → ε → Prop}
    (hinv : ∀ s e t, I s → step s e = some t → I t) (hCD : ∀ s e, I s → (C s e ↔ D s e))
    {s : σ} (hI : I s) (es : List ε) : StepsMeet step C s es ↔ StepsMeet step D s es := by
  induction es generalizing s with
  | nil => exact Iff.rfl
  | cons e es ih =>
    refine and_congr (hCD s e hI) ?_
    exact forall₂_congr fun t ht => ih (hinv s e t hI ht)

/-! ## Notes beside a run -/

/-- A step, and what is noted of it: `note` sees the state before the step, what was noted so
far, and the event. -/
def noted {γ : Type*} (note : σ → γ → ε → γ) (p : σ × γ) (e : ε) : Option (σ × γ) :=
  (step p.1 e).map fun t => (t, note p.1 p.2 e)

/-- Taking notes does not change a run. -/
theorem stepsMeet_noted {γ : Type*} (note : σ → γ → ε → γ) {C : σ → ε → Prop} (s : σ) (g : γ)
    (es : List ε) :
    StepsMeet (noted step note) (fun p e => C p.1 e) (s, g) es ↔ StepsMeet step C s es := by
  induction es generalizing s g with
  | nil => exact Iff.rfl
  | cons e es ih =>
    refine and_congr Iff.rfl ?_
    show (∀ p ∈ (step s e).map fun t => (t, note s g e),
      StepsMeet (noted step note) (fun p e => C p.1 e) p es) ↔ ∀ t ∈ step s e, StepsMeet step C t es
    cases step s e with
    | none => simp
    | some t => simpa using ih t (note s g e)

/-! ## Invariants of runs -/

/-- **Invariants that remember the past.**  `I past s` may speak of the events already
fed.  If every step that meets `C` keeps it, then it holds after every run whose
steps all meet `C`.  A step also learns where it stands in the whole list `all`. -/
theorem run_invariant_past {I : List ε → σ → Prop} {C : σ → ε → Prop} (all : List ε)
    (hstep : ∀ past e rest s t, past ++ e :: rest = all → I past s → C s e →
      step s e = some t → I (past ++ [e]) t) :
    ∀ (es past : List ε) (s t : σ), past ++ es = all → I past s →
      StepsMeet step C s es → run step s es = some t → I (past ++ es) t := by
  intro es
  induction es with
  | nil =>
    intro past s t _ hI _ hrun
    obtain rfl := Option.some.inj hrun
    rwa [List.append_nil]
  | cons e es ih =>
    intro past s t hall hI hmeet hrun
    obtain ⟨u, hu, hrest⟩ := (run_cons_eq_some step).mp hrun
    obtain ⟨hC, hmeet'⟩ := hmeet
    have hI' : I (past ++ [e]) u := hstep past e es s u hall hI hC hu
    have hnext := ih (past ++ [e]) u t (by rw [List.append_assoc]; exact hall) hI'
      (hmeet' u hu) hrest
    rwa [List.append_assoc] at hnext

/-- **Progress.**  If the system accepts every step that meets `C` from a state with the
invariant, and keeps it, then it accepts the whole list. -/
theorem run_progress_past {I : List ε → σ → Prop} {C : σ → ε → Prop} (all : List ε)
    (hstep : ∀ past e rest s, past ++ e :: rest = all → I past s → C s e →
      ∃ t, step s e = some t ∧ I (past ++ [e]) t) :
    ∀ (es past : List ε) (s : σ), past ++ es = all → I past s →
      StepsMeet step C s es → ∃ t, run step s es = some t ∧ I (past ++ es) t := by
  intro es
  induction es with
  | nil =>
    intro past s _ hI _
    exact ⟨s, rfl, by rwa [List.append_nil]⟩
  | cons e es ih =>
    intro past s hall hI hmeet
    obtain ⟨hC, hmeet'⟩ := hmeet
    obtain ⟨u, hu, hI'⟩ := hstep past e es s hall hI hC
    obtain ⟨t, ht, hIt⟩ := ih (past ++ [e]) u (by rw [List.append_assoc]; exact hall) hI'
      (hmeet' u hu)
    rw [List.append_assoc] at hIt
    exact ⟨t, (run_cons_eq_some step).mpr ⟨u, hu, ht⟩, hIt⟩

/-- An invariant of every step that meets `C` holds after every run whose steps all
meet `C`. -/
theorem run_invariant {I : σ → Prop} {C : σ → ε → Prop}
    (hstep : ∀ s e t, I s → C s e → step s e = some t → I t)
    {s t : σ} {es : List ε} (hI : I s) (hmeet : StepsMeet step C s es)
    (hrun : run step s es = some t) : I t :=
  run_invariant_past step (I := fun _ => I) es
    (fun _ e _ s t _ hI hC ht => hstep s e t hI hC ht) es [] s t rfl hI hmeet hrun

/-- **Exact monitors.**  If a step leaves the monitor `B` intact exactly when it was
intact before and the step meets `C`, then a run leaves it intact exactly when all
its steps meet `C`. -/
theorem run_monitor_iff {B : σ → Prop} {C : σ → ε → Prop} {I : σ → Prop}
    (hinv : ∀ s e t, I s → step s e = some t → I t)
    (hstep : ∀ s e t, I s → step s e = some t → (B t ↔ B s ∧ C s e))
    {s t : σ} {es : List ε} (hI : I s) (hrun : run step s es = some t) :
    B t ↔ B s ∧ StepsMeet step C s es := by
  induction es generalizing s with
  | nil =>
    obtain rfl := Option.some.inj hrun
    simp [StepsMeet]
  | cons e es ih =>
    obtain ⟨u, hu, hrest⟩ := (run_cons_eq_some step).mp hrun
    -- the rest of the run decides about the state after the first step
    rw [ih (hinv s e u hI hu) hrest, hstep s e u hI hu]
    simp only [StepsMeet, hu, Option.mem_def, Option.some.injEq, forall_eq', and_assoc]

/-- **Exact monitors of accepted runs.**  Let every step that meets `G` be accepted, keep the
invariant, and leave the monitor `B` intact exactly when it was intact before and the step
meets `C`.  Then a run whose steps all meet `G` leaves it intact exactly when they all
meet `C`. -/
theorem run_monitor_iff_of_stepsMeet {B I : σ → Prop} {G C : σ → ε → Prop}
    (hstep : ∀ s e, I s → G s e → ∃ t, step s e = some t ∧ I t ∧ (B t ↔ B s ∧ C s e))
    {s : σ} {es : List ε} (hI : I s) (hmeet : StepsMeet step G s es) :
    ∃ t, run step s es = some t ∧ (B t ↔ B s ∧ StepsMeet step C s es) := by
  induction es generalizing s with
  | nil => exact ⟨s, rfl, (and_iff_left trivial).symm⟩
  | cons e es ih =>
    obtain ⟨hG, hmeet'⟩ := hmeet
    obtain ⟨u, hu, hIu, hBu⟩ := hstep s e hI hG
    obtain ⟨t, ht, hBt⟩ := ih hIu (hmeet' u hu)
    refine ⟨t, (run_cons_eq_some step).mpr ⟨u, hu, ht⟩, ?_⟩
    rw [hBt, hBu]
    simp only [StepsMeet, hu, Option.mem_def, Option.some.injEq, forall_eq', and_assoc]

/-! ## Properties of every state on the way -/

/-- `B` holds of every state of the run on `es` from `s`, the first one included. -/
def Always (B : σ → Prop) : σ → List ε → Prop
  | s, [] => B s
  | s, e :: es => B s ∧ ∀ t ∈ step s e, Always B t es

/-- The last state is one of them. -/
theorem Always.of_run {B : σ → Prop} {s t : σ} {es : List ε} (h : Always step B s es)
    (hrun : run step s es = some t) : B t := by
  induction es generalizing s with
  | nil =>
    obtain rfl := Option.some.inj hrun
    exact h
  | cons e es ih =>
    obtain ⟨u, hu, hrest⟩ := (run_cons_eq_some step).mp hrun
    exact ih (h.2 u hu) hrest

/-- What follows from an invariant of every step holds of every state. -/
theorem always_of_invariant {I B : σ → Prop} (hinv : ∀ s e t, I s → step s e = some t → I t)
    (hB : ∀ s, I s → B s) {s : σ} (hI : I s) (es : List ε) : Always step B s es := by
  induction es generalizing s with
  | nil => exact hB s hI
  | cons e es ih => exact ⟨hB s hI, fun t ht => ih (hinv s e t hI ht)⟩

/-- **Safety and progress.**  If the system accepts every step that meets `C` from a state with
the invariant, and keeps it, then it accepts every list whose steps all meet `C`, and what
follows from the invariant holds of every state on the way. -/
theorem always_of_stepsMeet {I B : σ → Prop} {C : σ → ε → Prop}
    (hstep : ∀ s e, I s → C s e → ∃ t, step s e = some t ∧ I t) (hB : ∀ s, I s → B s) {s : σ}
    {es : List ε} (hI : I s) (hmeet : StepsMeet step C s es) :
    (run step s es).isSome ∧ Always step B s es := by
  induction es generalizing s with
  | nil => exact ⟨rfl, hB s hI⟩
  | cons e es ih =>
    obtain ⟨hC, hmeet'⟩ := hmeet
    obtain ⟨u, hu, hIu⟩ := hstep s e hI hC
    obtain ⟨hrun, halways⟩ := ih hIu (hmeet' u hu)
    rw [run_cons, hu]
    refine ⟨hrun, hB s hI, fun t ht => ?_⟩
    rw [hu] at ht
    obtain rfl := Option.some.inj ht
    exact halways

/-- **Exact safety.**  Let a step from a good state lead to a good state exactly when it
meets `C`, and a refused event meet it.  Then a run stays among the good states exactly
when all its steps meet `C`. -/
theorem always_iff_stepsMeet {B : σ → Prop} {C : σ → ε → Prop} {I : σ → Prop}
    (hinv : ∀ s e t, I s → B s → step s e = some t → I t)
    (hstep : ∀ s e t, I s → B s → step s e = some t → (B t ↔ C s e))
    (hrefused : ∀ s e, I s → B s → step s e = none → C s e)
    {s : σ} {es : List ε} (hI : I s) (hB : B s) :
    Always step B s es ↔ StepsMeet step C s es := by
  induction es generalizing s with
  | nil => exact iff_of_true hB trivial
  | cons e es ih =>
    cases hu : step s e with
    | none =>
      simp only [Always, StepsMeet, hu, hB, hrefused s e hI hB hu, Option.mem_def,
        reduceCtorEq, false_implies, implies_true, and_self]
    | some u =>
      have hfirst := hstep s e u hI hB hu
      simp only [Always, StepsMeet, hu, Option.mem_def, Option.some.injEq, forall_eq', hB,
        true_and]
      constructor
      · intro h
        -- the rest of the run begins in a good state
        have hBu : B u := by
          cases es with
          | nil => exact h
          | cons e' es => exact h.1
        exact ⟨hfirst.mp hBu, (ih (hinv s e u hI hB hu) hBu).mp h⟩
      · rintro ⟨hC, h⟩
        exact (ih (hinv s e u hI hB hu) (hfirst.mpr hC)).mpr h

/-! ## Two systems side by side -/

/-- What `obs` shows of the states reached one after the other. -/
def trace {ω : Type*} (obs : σ → ω) : σ → List ε → List ω
  | _, [] => []
  | s, e :: es =>
    match step s e with
    | none => []
    | some t => obs t :: trace obs t es

/-- **Exact agreement.**  Let two systems take the same step when `C` holds, and steps with
different observations when it does not.  Then they show the same on a run exactly when
all its steps meet `C`. -/
theorem trace_eq_iff {ω : Type*} {step₁ step₂ : σ → ε → Option σ} {obs : σ → ω}
    {C : σ → ε → Prop} (hsame : ∀ s e, C s e → step₁ s e = step₂ s e)
    (hdiff : ∀ s e, ¬ C s e →
      ∃ t u, step₁ s e = some t ∧ step₂ s e = some u ∧ obs t ≠ obs u)
    (s : σ) (es : List ε) :
    trace step₁ obs s es = trace step₂ obs s es ↔ StepsMeet step₂ C s es := by
  induction es generalizing s with
  | nil => exact iff_of_true rfl trivial
  | cons e es ih =>
    by_cases hC : C s e
    · simp only [trace, StepsMeet, hsame s e hC, hC, true_and]
      cases h : step₂ s e with
      | none => simp
      | some t => simpa using ih t
    · obtain ⟨t, u, ht, hu, hne⟩ := hdiff s e hC
      refine iff_of_false ?_ fun h => hC h.1
      intro h
      rw [trace, trace, ht, hu] at h
      exact hne (List.cons.inj h).1

end Runs
