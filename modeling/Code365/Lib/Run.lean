import Mathlib

/-! # Runs of event-driven components

A component handles one event after another.  Its step function `step s e` is partial: `none`
means that the language gives the step no meaning (an iterator advanced after its node was
erased, a write outside an array), and then the component may be found in any state
whatever (`MayStep`).  `Run next s es t` says that the events `es`, handled in this order
from `s`, may leave the component in `t`; `Guarded G next` keeps only the steps whose state
and event meet `G`.  `Run.invariant` is the induction over a run. -/

namespace Code365

variable {σ ε : Type*}

/-- The successors of a step: the value of a defined step, anything after an undefined one. -/
def MayStep (step : σ → ε → Option σ) (s : σ) (e : ε) (t : σ) : Prop :=
  step s e = none ∨ step s e = some t

/-- The steps of `next` whose state before and event meet `G`. -/
def Guarded (G : σ → ε → Prop) (next : σ → ε → σ → Prop) (s : σ) (e : ε) (t : σ) : Prop :=
  G s e ∧ next s e t

/-- `Run next s es t`: handling `es` in order from `s` may end in `t`. -/
inductive Run (next : σ → ε → σ → Prop) : σ → List ε → σ → Prop
  | nil (s : σ) : Run next s [] s
  | cons {s t u : σ} {e : ε} {es : List ε} : next s e t → Run next t es u → Run next s (e :: es) u

theorem MayStep.eq_of_some {step : σ → ε → Option σ} {s t u : σ} {e : ε}
    (h : MayStep step s e t) (hs : step s e = some u) : t = u := by
  rcases h with h | h
  · rw [hs] at h; cases h
  · rw [hs] at h; exact (Option.some.inj h).symm

theorem MayStep.of_some {step : σ → ε → Option σ} {s t : σ} {e : ε} (h : step s e = some t) :
    MayStep step s e t := .inr h

namespace Run

variable {next : σ → ε → σ → Prop} {s t : σ} {es : List ε}

/-- What holds at the start and is kept by every step holds wherever a run ends. -/
theorem invariant {I : σ → Prop} (h : Run next s es t) (h0 : I s)
    (hstep : ∀ s e t, I s → next s e t → I t) : I t := by
  induction h with
  | nil s => exact h0
  | cons hn _ ih => exact ih (hstep _ _ _ h0 hn)

theorem append {u : σ} {es' : List ε} (h : Run next s es t) (h' : Run next t es' u) :
    Run next s (es ++ es') u := by
  induction h with
  | nil => exact h'
  | cons hn _ ih => exact cons hn (ih h')

/-- A run by evaluation, when all its steps are defined. -/
theorem of_foldlM {step : σ → ε → Option σ} : ∀ {es : List ε} {s : σ},
    (∀ e ∈ es, ∀ s t, step s e = some t → next s e t) → es.foldlM step s = some t → Run next s es t
  | [], s, _, h => by
    obtain rfl : s = t := Option.some.inj h
    exact nil s
  | e :: es, s, hn, h => by
    obtain ⟨u, hu, hes⟩ := Option.bind_eq_some_iff.mp h
    exact cons (hn e (by simp) s u hu) (of_foldlM (fun e' he' => hn e' (by simp [he'])) hes)

end Run

end Code365
