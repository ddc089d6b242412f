import Allegro.Lib.Run

/-!
# Events that leave no trace

Some events of a system are hidden: states related by `R` are alike to everyone
who does not see the hidden events. `Erases` says that a visible step keeps the
states alike, and that a hidden step leaves a state like what it was.

* `Erases.run`: the hidden events can be left out of a run; it ends in a state
  like the one it would have ended in.
* `Erases.trace`: and gives out the same.
-/

namespace Run

variable {σ ε : Type*}

/-- The events without the hidden ones. -/
def visibleEvents (hidden : ε → Bool) (es : List ε) : List ε := es.filter fun e => !hidden e

/-- The hidden events make no difference up to `R`, in runs whose events meet `D`. -/
structure Erases (step : σ → ε → σ) (R : σ → σ → Prop) (D : ε → Prop) (hidden : ε → Bool) :
    Prop where
  visible : ∀ {s t e}, D e → hidden e = false → R s t → R (step s e) (step t e)
  invisible : ∀ {s t e}, D e → hidden e = true → R s t → R (step s e) t

variable {step : σ → ε → σ} {R : σ → σ → Prop} {D : ε → Prop} {hidden : ε → Bool}

theorem Erases.run (h : Erases step R D hidden) {s t : σ} (hst : R s t) {es : List ε}
    (hD : ∀ e ∈ es, D e) : R (run step s es) (run step t (visibleEvents hidden es)) := by
  induction es generalizing s t with
  | nil => exact hst
  | cons e es ih =>
    have he := hD e List.mem_cons_self
    have hes := fun e' he' => hD e' (List.mem_cons_of_mem e he')
    rw [visibleEvents, List.filter_cons]
    cases hh : hidden e with
    | true => exact ih (h.invisible he hh hst) hes
    | false => exact ih (h.visible he hh hst) hes

/-- Where alike states give out the same at visible steps, and nothing at hidden
ones, a run gives out the same without its hidden events. -/
theorem Erases.trace {ο : Type*} {out : σ → ε → List ο} (h : Erases step R D hidden)
    (hout : ∀ {s t e}, D e → hidden e = false → R s t → out s e = out t e)
    (hnone : ∀ {s e}, hidden e = true → out s e = []) {s t : σ} (hst : R s t) {es : List ε}
    (hD : ∀ e ∈ es, D e) : trace step out s es = trace step out t (visibleEvents hidden es) := by
  induction es generalizing s t with
  | nil => rfl
  | cons e es ih =>
    have he := hD e List.mem_cons_self
    have hes := fun e' he' => hD e' (List.mem_cons_of_mem e he')
    rw [visibleEvents, List.filter_cons, Run.trace]
    cases hh : hidden e with
    | true =>
      rw [hnone hh]
      exact ih (h.invisible he hh hst) hes
    | false =>
      rw [hout he hh hst]
      exact congrArg _ (ih (h.visible he hh hst) hes)

end Run
