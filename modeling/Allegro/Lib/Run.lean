import Mathlib.Data.List.Infix

/-!
# Runs of a step function

A system is a state type `σ`, an event type `ε` and a total step function. An
event that is not enabled in a state is a step that changes nothing, so every
list of events is a run.

* `run`: the state after a list of events.
* `Along`: every step of the run meets a condition on the state before the step
  and the event. This is how an assumption on the environment, or a condition
  on the inputs, is stated for a whole run.
* `Always`: a property holds in every state the run visits.
* `trace`: what the steps of a run give out, in their order.

The rules below turn facts about one step into facts about whole runs:
`run_invariant` and `Along.invariant` for a property of states,
`trace_invariant` for a property of the events so far and the state they lead
to, `along_congr` for two conditions on steps that are equivalent, and
`along_iff_always` for a condition on steps that is equivalent to a property of
the states visited.
-/

namespace Run

variable {σ ε : Type*} {step : σ → ε → σ}

/-- The state after the events `es`, taken from `s`. -/
def run (step : σ → ε → σ) (s : σ) (es : List ε) : σ := es.foldl step s

/-- Every step of the run from `s` meets `C`. -/
def Along (step : σ → ε → σ) (C : σ → ε → Prop) : σ → List ε → Prop
  | _, [] => True
  | s, e :: es => C s e ∧ Along step C (step s e) es

/-- `P` holds in every state of the run from `s`, the first and the last included. -/
def Always (step : σ → ε → σ) (P : σ → Prop) : σ → List ε → Prop
  | s, [] => P s
  | s, e :: es => P s ∧ Always step P (step s e) es

/-- What the steps of the run from `s` give out. -/
def trace {ο : Type*} (step : σ → ε → σ) (out : σ → ε → List ο) : σ → List ε → List ο
  | _, [] => []
  | s, e :: es => out s e ++ trace step out (step s e) es

@[simp] theorem run_cons (s : σ) (e : ε) (es : List ε) :
    run step s (e :: es) = run step (step s e) es := rfl

theorem run_append (s : σ) (es es' : List ε) :
    run step s (es ++ es') = run step (run step s es) es' :=
  List.foldl_append

@[simp] theorem run_concat (s : σ) (es : List ε) (e : ε) :
    run step s (es ++ [e]) = step (run step s es) e := by
  rw [run_append]
  rfl

/-- A system that is part of another runs as it does alone. -/
theorem run_hom {τ : Type*} {step' : τ → ε → τ} (f : σ → τ)
    (hf : ∀ s e, f (step s e) = step' (f s) e) (s : σ) (es : List ε) :
    f (run step s es) = run step' (f s) es := by
  induction es generalizing s with
  | nil => rfl
  | cons e es ih => rw [run_cons, ih, hf, run_cons]

/-! ## Conditions on the steps -/

section Along

variable {C C' : σ → ε → Prop}

theorem along_append {s : σ} {es es' : List ε} :
    Along step C s (es ++ es') ↔ Along step C s es ∧ Along step C (run step s es) es' := by
  induction es generalizing s with
  | nil => exact ⟨fun h => ⟨trivial, h⟩, fun h => h.2⟩
  | cons e es ih =>
    simp only [List.cons_append, Along, run_cons, ih, and_assoc]

theorem Along.mono {s : σ} {es : List ε} (hC : ∀ s e, C s e → C' s e)
    (h : Along step C s es) : Along step C' s es := by
  induction es generalizing s with
  | nil => trivial
  | cons e es ih => exact ⟨hC s e h.1, ih h.2⟩

theorem Along.and {s : σ} {es : List ε} (h : Along step C s es) (h' : Along step C' s es) :
    Along step (fun s e => C s e ∧ C' s e) s es := by
  induction es generalizing s with
  | nil => trivial
  | cons e es ih => exact ⟨⟨h.1, h'.1⟩, ih h.2 h'.2⟩

theorem Along.hom {τ : Type*} {step' : τ → ε → τ} {C' : τ → ε → Prop} {f : σ → τ}
    (hf : ∀ s e, f (step s e) = step' (f s) e) (hC : ∀ s e, C s e → C' (f s) e) {s : σ}
    {es : List ε} (h : Along step C s es) : Along step' C' (f s) es := by
  induction es generalizing s with
  | nil => trivial
  | cons e es ih => exact ⟨hC s e h.1, hf s e ▸ ih h.2⟩

/-- The condition, read at one step of the run. -/
theorem Along.at {s : σ} {es es' : List ε} {e : ε} (h : Along step C s (es ++ e :: es')) :
    C (run step s es) e :=
  (along_append.mp h).2.1

/-- A condition on the events alone. -/
theorem along_of_forall {D : ε → Prop} {s : σ} {es : List ε} (h : ∀ e ∈ es, D e) :
    Along step (fun _ e => D e) s es := by
  induction es generalizing s with
  | nil => trivial
  | cons e es ih =>
    exact ⟨h e List.mem_cons_self, ih fun e' he' => h e' (List.mem_cons_of_mem e he')⟩

/-- A condition that holds at every split of the run holds along it. -/
theorem along_of_splits {s : σ} {es : List ε}
    (h : ∀ es₁ e es₂, es = es₁ ++ e :: es₂ → C (run step s es₁) e) : Along step C s es := by
  induction es generalizing s with
  | nil => trivial
  | cons e es ih =>
    refine ⟨h [] e es rfl, ih fun es₁ e' es₂ hes => ?_⟩
    exact h (e :: es₁) e' es₂ (by rw [hes]; rfl)

end Along

/-! ## What a run gives out -/

section Trace

variable {ο : Type*} {out : σ → ε → List ο}

theorem trace_append (s : σ) (es es' : List ε) :
    trace step out s (es ++ es') = trace step out s es ++ trace step out (run step s es) es' := by
  induction es generalizing s with
  | nil => rfl
  | cons e es ih => rw [List.cons_append, trace, trace, ih, List.append_assoc, run_cons]

theorem trace_concat (s : σ) (es : List ε) (e : ε) :
    trace step out s (es ++ [e]) = trace step out s es ++ out (run step s es) e := by
  rw [trace_append, trace, trace, List.append_nil]

/-- What a run gives out was given out at one of its steps. -/
theorem mem_trace {s : σ} {es : List ε} {o : ο} (h : o ∈ trace step out s es) :
    ∃ es₁ e es₂, es = es₁ ++ e :: es₂ ∧ o ∈ out (run step s es₁) e := by
  induction es generalizing s with
  | nil => exact absurd h List.not_mem_nil
  | cons e es ih =>
    rcases List.mem_append.mp h with h | h
    · exact ⟨[], e, es, rfl, h⟩
    · obtain ⟨es₁, e', es₂, rfl, ho⟩ := ih h
      exact ⟨e :: es₁, e', es₂, rfl, ho⟩

theorem mem_trace_of_step {s : σ} {es es' : List ε} {e : ε} {o : ο}
    (h : o ∈ out (run step s es) e) : o ∈ trace step out s (es ++ e :: es') := by
  rw [trace_append, trace]
  exact List.mem_append_right _ (List.mem_append_left _ h)

end Trace

/-! ## Invariants -/

/-- A property kept by every step holds at the end of every run. -/
theorem run_invariant {P : σ → Prop} (hstep : ∀ s e, P s → P (step s e)) {s : σ}
    (h : P s) (es : List ε) : P (run step s es) := by
  induction es generalizing s with
  | nil => exact h
  | cons e es ih => exact ih (hstep s e h)

/-- A property kept by every step that meets `C` holds at the end of every run
whose steps all meet `C`. -/
theorem Along.invariant {C : σ → ε → Prop} {P : σ → Prop}
    (hstep : ∀ s e, P s → C s e → P (step s e)) {s : σ} {es : List ε}
    (h : P s) (hC : Along step C s es) : P (run step s es) := by
  induction es generalizing s with
  | nil => exact h
  | cons e es ih => exact ih (hstep s e h hC.1) hC.2

/-- An invariant that looks back at the events so far: it holds of the empty
run, and one more event keeps it. -/
theorem trace_invariant (step : σ → ε → σ) (s : σ) {P : List ε → σ → Prop} (h : P [] s)
    (hstep : ∀ es e, P es (run step s es) → P (es ++ [e]) (step (run step s es) e))
    (es : List ε) : P es (run step s es) := by
  induction es using List.reverseRecOn with
  | nil => exact h
  | append_singleton es e ih =>
    rw [run_concat]
    exact hstep es e ih

/-- Where two conditions agree (in the states of an invariant `H`, at steps that
meet `D`), the same runs meet them. -/
theorem along_congr {C C' D : σ → ε → Prop} {H : σ → Prop}
    (hH : ∀ s e, H s → D s e → H (step s e)) (hC : ∀ s e, H s → D s e → (C s e ↔ C' s e)) {s : σ}
    {es : List ε} (hD : Along step D s es) (hs : H s) :
    Along step C s es ↔ Along step C' s es := by
  induction es generalizing s with
  | nil => exact Iff.rfl
  | cons e es ih => exact and_congr (hC s e hs hD.1) (ih hD.2 (hH s e hs hD.1))

/-! ## Properties of every state visited -/

theorem Always.head {P : σ → Prop} {s : σ} {es : List ε} (h : Always step P s es) : P s := by
  cases es with
  | nil => exact h
  | cons e es => exact h.1

/-- Where a step keeps `P` exactly when it meets `C` (in the states of an
invariant `H`, at steps that meet `D`), the runs that meet `C` at every step are
exactly the runs that keep `P` throughout. -/
theorem along_iff_always {C D : σ → ε → Prop} {H P : σ → Prop}
    (hH : ∀ s e, H s → H (step s e))
    (hC : ∀ s e, H s → D s e → P s → (C s e ↔ P (step s e))) {s : σ} {es : List ε}
    (hD : Along step D s es) (hs : H s) (h : P s) : Along step C s es ↔ Always step P s es := by
  induction es generalizing s with
  | nil => exact ⟨fun _ => h, fun _ => trivial⟩
  | cons e es ih =>
    constructor
    · rintro ⟨hc, hrest⟩
      have hnext := (hC s e hs hD.1 h).mp hc
      exact ⟨h, (ih hD.2 (hH s e hs) hnext).mp hrest⟩
    · rintro ⟨_, hrest⟩
      have hnext := hrest.head
      exact ⟨(hC s e hs hD.1 h).mpr hnext, (ih hD.2 (hH s e hs) hnext).mpr hrest⟩

end Run
