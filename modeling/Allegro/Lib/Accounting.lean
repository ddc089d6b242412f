import Mathlib.Logic.Function.Iterate
import Allegro.Lib.Run

/-!
# Accounting for a run

What a whole run amounts to, from a law that each of its steps keeps in the states
of an invariant `I`.

* `trace_conserved`: what goes into a queue comes out in its order, or is left.
* `trace_counted`: a counter that is incremented for each output has been incremented as
  often as its length. The counter need not be a natural number: it may wrap around.
* `trace_grown`: a log that only grows is what the steps have added to it.
* `trace_sublist`: what is part of the output at each step is part of it in a run.
* `trace_events`: what the events alone give out.
* `trace_simulates`: what a run gives out follows a protocol, if each step does from
  where the steps before it have left the protocol.
* `simulated_run`: a system that is simulated step by step, by any number of steps of
  another, is simulated run by run.
-/

namespace Run

variable {σ ε ο : Type*} {step : σ → ε → σ} {I : σ → Prop}

theorem trace_conserved (contents : σ → List ο) {input output : σ → ε → List ο}
    (hI : ∀ s e, I s → I (step s e))
    (hstep : ∀ s e, I s → contents s ++ input s e = output s e ++ contents (step s e)) {s : σ}
    (hs : I s) (es : List ε) :
    contents s ++ trace step input s es = trace step output s es ++ contents (run step s es) := by
  induction es generalizing s with
  | nil => exact List.append_nil _
  | cons e es ih =>
    rw [trace, trace, ← List.append_assoc, hstep s e hs, List.append_assoc, ih (hI s e hs),
      ← List.append_assoc, run_cons]

theorem trace_counted {μ : Type*} (inc : μ → μ) (count : σ → μ) {out : σ → ε → List ο}
    (hI : ∀ s e, I s → I (step s e))
    (hstep : ∀ s e, I s → count (step s e) = inc^[(out s e).length] (count s)) {s : σ} (hs : I s)
    (es : List ε) : count (run step s es) = inc^[(trace step out s es).length] (count s) := by
  induction es generalizing s with
  | nil => rfl
  | cons e es ih =>
    rw [run_cons, ih (hI s e hs), hstep s e hs, trace, List.length_append, Nat.add_comm,
      Function.iterate_add_apply]

theorem trace_grown (log : σ → List ο) (hstep : ∀ s e, log s <+: log (step s e)) (s : σ)
    (es : List ε) :
    log (run step s es) =
      log s ++ trace step (fun s e => (log (step s e)).drop (log s).length) s es := by
  induction es generalizing s with
  | nil => exact (List.append_nil _).symm
  | cons e es ih =>
    obtain ⟨new, hnew⟩ := hstep s e
    rw [run_cons, ih, trace, ← hnew, List.drop_left, List.append_assoc]

/-- What each step gives out in part, the run gives out in part. -/
theorem trace_sublist {part out : σ → ε → List ο} (hstep : ∀ s e, (part s e).Sublist (out s e))
    (s : σ) (es : List ε) : (trace step part s es).Sublist (trace step out s es) := by
  induction es generalizing s with
  | nil => exact List.Sublist.refl _
  | cons e es ih => exact (hstep s e).append (ih (step s e))

/-- What depends on the events only does not depend on the run. -/
theorem trace_events {out : ε → List ο} (s : σ) (es : List ε) :
    trace step (fun _ e => out e) s es = es.flatMap out := by
  induction es generalizing s with
  | nil => rfl
  | cons e es ih => rw [trace, ih, List.flatMap_cons]

/-- A protocol has states of its own: `next` moves them on, `permits` says what may come
next. The relation `R` between the state of the system and that of the protocol is kept,
at steps that meet `C`. -/
theorem trace_simulates {τ : Type*} {out : σ → ε → List ο} {next : τ → ο → τ}
    {permits : τ → ο → Prop} {C : σ → ε → Prop} {R : σ → τ → Prop}
    (hstep : ∀ s t e, R s t → C s e →
      Along next permits t (out s e) ∧ R (step s e) (run next t (out s e))) {s : σ} {t : τ}
    (h : R s t) {es : List ε} (hC : Along step C s es) :
    Along next permits t (trace step out s es) ∧
      R (run step s es) (run next t (trace step out s es)) := by
  induction es generalizing s t with
  | nil => exact ⟨trivial, h⟩
  | cons e es ih =>
    obtain ⟨hnow, hnext⟩ := hstep s t e h hC.1
    obtain ⟨hlater, hend⟩ := ih hnext hC.2
    rw [run_cons, trace, run_append]
    exact ⟨along_append.mpr ⟨hnow, hlater⟩, hend⟩

/-- The relation `R` between the states is kept, and the steps taken in place of a step
that meets `D` meet `D'`. -/
theorem simulated_run {τ φ : Type*} {step' : τ → φ → τ} {R : σ → τ → Prop} {D : ε → Prop}
    {D' : φ → Prop}
    (hstep : ∀ s t e, D e → R s t →
      ∃ fs, (∀ f ∈ fs, D' f) ∧ R (step s e) (run step' t fs)) {s : σ} {t : τ} (h : R s t)
    {es : List ε} (hD : ∀ e ∈ es, D e) :
    ∃ fs, (∀ f ∈ fs, D' f) ∧ R (run step s es) (run step' t fs) := by
  induction es generalizing s t with
  | nil => exact ⟨[], fun _ hf => (nomatch hf), h⟩
  | cons e es ih =>
    obtain ⟨now, hnow, hmid⟩ := hstep s t e (hD e List.mem_cons_self) h
    obtain ⟨rest, hrest, hend⟩ := ih hmid fun e' he' => hD e' (List.mem_cons_of_mem e he')
    refine ⟨now ++ rest, fun f hf => ?_, ?_⟩
    · exact (List.mem_append.mp hf).elim (hnow f) (hrest f)
    · rw [run_append]
      exact hend

end Run
