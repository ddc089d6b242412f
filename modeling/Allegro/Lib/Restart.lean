import Allegro.Lib.Network

/-!
# Machines that crash and restart

A party of a network keeps a configuration `κ` and a volatile state. A crash
loses the volatile state: the party starts over from what its configuration
boots. What it has sent stays on the wire.

`Machine.restarting` adds crashes to a machine, and `Machine.restarting_invariant`
is the assume-guarantee rule for it. Beyond what the machine itself has to keep,
only the state after a boot has to meet the local invariant. `Machine.run_taken` is
about one party between two restarts: it runs the machine. `Machine.split_taken` finds
a step of that run again in the run of the network.
-/

namespace Run.Machine

variable {ι κ σ ε M : Type*}

/-- The machine with crashes. The event `none` is a restart. -/
def restarting (m : Machine σ ε M) (boot : κ → σ) : Machine (κ × σ) (Option ε) M where
  step := fun p e => match e with
    | some e => (p.1, m.step p.2 e)
    | none => (p.1, boot p.1)
  receives := fun e => e.bind m.receives
  sends := fun p e => match e with
    | some e => m.sends p.2 e
    | none => []

/-- A condition on the steps of the machine. A restart meets every condition. -/
def WhileUp (C : κ → σ → ε → Prop) (p : κ × σ) (e : Option ε) : Prop :=
  ∀ e', e = some e' → C p.1 p.2 e'

/-- The state of every party before the first step. -/
def booted (boot : κ → σ) (cfg : ι → κ) : Net ι (κ × σ) M where
  party := fun i => (cfg i, boot (cfg i))
  wire := []

variable [DecidableEq ι] [DecidableEq M] {m : Machine σ ε M} {boot : κ → σ}

theorem restarting_invariant {K : κ → Prop} {C : κ → σ → ε → Prop} {I : κ → σ → Prop}
    {J : M → Prop} (hboot : ∀ k, K k → I k (boot k))
    (hstep : ∀ k s e, K k → I k s → C k s e → (∀ msg, m.receives e = some msg → J msg) →
      I k (m.step s e))
    (hsend : ∀ k s e, K k → I k s → C k s e → ∀ msg ∈ m.sends s e, J msg)
    {cfg : ι → κ} (hcfg : ∀ i, K (cfg i)) {es : List (ι × Option ε)}
    (hC : Along (m.restarting boot).netStep (Local (WhileUp C)) (booted boot cfg) es) :
    Inv (fun p => K p.1 ∧ I p.1 p.2) J (run (m.restarting boot).netStep (booted boot cfg) es) := by
  refine Machine.invariant (C := WhileUp C) ?_ ?_ ?_ hC
  · rintro ⟨k, s⟩ e ⟨hk, hs⟩ he hmsg
    cases e with
    | none => exact ⟨hk, hboot k hk⟩
    | some e => exact ⟨hk, hstep k s e hk hs (he e rfl) hmsg⟩
  · rintro ⟨k, s⟩ e ⟨hk, hs⟩ he msg hmem
    cases e with
    | none => exact absurd hmem List.not_mem_nil
    | some e => exact hsend k s e hk hs (he e rfl) msg hmem
  · exact ⟨fun i => ⟨hcfg i, hboot (cfg i) (hcfg i)⟩, fun _ h => absurd h List.not_mem_nil⟩

/-! ## One party while it is up -/

/-- The step of the machine that party `i` takes at a step of the network. -/
def taken (m : Machine σ ε M) (boot : κ → σ) (i : ι) (s : Net ι (κ × σ) M)
    (ie : ι × Option ε) : List ε :=
  ((m.restarting boot).heard i s ie).reduceOption

theorem taken_cases (i : ι) (s : Net ι (κ × σ) M) (ie : ι × Option ε) :
    m.taken boot i s ie = [] ∨ ∃ e, ie = (i, some e) ∧ m.taken boot i s ie = [e] := by
  rw [taken]
  rcases heard_cases (m.restarting boot) i s ie with hnone | ⟨hi, hone⟩
  · rw [hnone]
    exact .inl rfl
  · rw [hone]
    obtain ⟨j, _ | e⟩ := ie
    · exact .inl rfl
    · subst hi
      exact .inr ⟨e, rfl, rfl⟩

/-- A step that needs no message is always taken. -/
theorem mem_taken {i : ι} {e : ε} (hr : m.receives e = none) (s : Net ι (κ × σ) M) :
    e ∈ m.taken boot i s (i, some e) := by
  have hheard : (m.restarting boot).heard i s (i, some e) = [some e] := by
    have hnone : (m.restarting boot).receives (some e) = none := hr
    rw [heard, if_pos rfl, hnone]
  rw [taken, hheard]
  exact List.mem_singleton.mpr rfl

/-- A party that does not restart runs the machine, and what its steps meet in the
network they meet in its own run. -/
theorem party_taken {i : ι} {C : κ → σ → ε → Prop} {s : Net ι (κ × σ) M}
    {ie : ι × Option ε} (hup : ie ≠ (i, none)) (hC : Local (WhileUp C) s ie) :
    ((m.restarting boot).netStep s ie).party i =
        ((s.party i).1, run m.step (s.party i).2 (m.taken boot i s ie)) ∧
      Along m.step (C (s.party i).1) (s.party i).2 (m.taken boot i s ie) := by
  rw [party_netStep, taken]
  rcases heard_cases (m.restarting boot) i s ie with hnone | ⟨hi, hone⟩
  · rw [hnone]
    exact ⟨rfl, trivial⟩
  · rw [hone]
    obtain ⟨j, _ | e⟩ := ie
    · subst hi
      exact absurd rfl hup
    · subst hi
      exact ⟨rfl, hC e rfl, trivial⟩

/-- What a party takes at one point of the run it takes at a step of the network. -/
theorem split_taken {i : ι} {s : Net ι (κ × σ) M} {es : List (ι × Option ε)} {before after : List ε}
    {e : ε}
    (h : trace (m.restarting boot).netStep (m.taken boot i) s es = before ++ e :: after) :
    ∃ es₁ es₂, es = es₁ ++ (i, some e) :: es₂ ∧
      trace (m.restarting boot).netStep (m.taken boot i) s es₁ = before := by
  induction es generalizing s before with
  | nil => exact absurd h.symm (List.append_ne_nil_of_right_ne_nil _ (List.cons_ne_nil _ _))
  | cons ie es ih =>
    rw [trace] at h
    rcases taken_cases i s ie with hnone | ⟨e', rfl, hone⟩
    · rw [hnone] at h
      obtain ⟨es₁, es₂, rfl, hbefore⟩ := ih h
      exact ⟨ie :: es₁, es₂, rfl, by rw [trace, hnone, hbefore]; rfl⟩
    · rw [hone, List.singleton_append] at h
      rcases List.append_eq_cons_iff.mp h.symm with ⟨rfl, hcons⟩ | ⟨before', rfl, hrest⟩
      · cases hcons
        exact ⟨[], es, rfl, rfl⟩
      · obtain ⟨es₁, es₂, rfl, hbefore⟩ := ih hrest
        exact ⟨(i, some e') :: es₁, es₂, rfl, by rw [trace, hone, hbefore]; rfl⟩

theorem run_taken {i : ι} {C : κ → σ → ε → Prop} {s : Net ι (κ × σ) M}
    {es : List (ι × Option ε)} (hup : (i, none) ∉ es)
    (hC : Along (m.restarting boot).netStep (Local (WhileUp C)) s es) :
    let mine := trace (m.restarting boot).netStep (m.taken boot i) s es
    (run (m.restarting boot).netStep s es).party i =
        ((s.party i).1, run m.step (s.party i).2 mine) ∧
      Along m.step (C (s.party i).1) (s.party i).2 mine := by
  induction es generalizing s with
  | nil => exact ⟨rfl, trivial⟩
  | cons ie es ih =>
    obtain ⟨hnow, hmeets⟩ := party_taken (fun h => hup (h ▸ List.mem_cons_self)) hC.1
    obtain ⟨hrest, hmeets'⟩ := ih (fun h => hup (List.mem_cons_of_mem ie h)) hC.2
    rw [hnow] at hrest hmeets'
    refine ⟨?_, along_append.mpr ⟨hmeets, hmeets'⟩⟩
    rw [run_cons, hrest, trace, run_append]

end Run.Machine
