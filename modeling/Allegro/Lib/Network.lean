import Allegro.Lib.Run
import Mathlib.Logic.Function.Basic

/-!
# Networks of machines that exchange messages

Every party of a network runs the same machine. A step of a party may consume
one message and may put messages on the wire. What was put on the wire stays
there: a message can be delivered in any order, to any party, any number of
times or never. A message that nobody has sent cannot be delivered.

`Machine.invariant` is the assume-guarantee rule. A local invariant `I` of the
parties and a property `J` of the messages hold together, when a party keeps
`I` on messages that meet `J`, and in states of `I` sends only such messages.
-/

namespace Run

/-- A party of a network: its step function, the message an event delivers to
it, and the messages a step puts on the wire. -/
structure Machine (σ ε M : Type*) where
  step : σ → ε → σ
  receives : ε → Option M
  sends : σ → ε → List M

/-- The parties' states and every message sent so far. -/
structure Net (ι σ M : Type*) where
  party : ι → σ
  wire : List M

namespace Machine

variable {ι σ ε M : Type*} [DecidableEq ι] [DecidableEq M]

/-- Party `i` takes the step `e`. -/
def fire (m : Machine σ ε M) (s : Net ι σ M) (i : ι) (e : ε) : Net ι σ M where
  party := Function.update s.party i (m.step (s.party i) e)
  wire := s.wire ++ m.sends (s.party i) e

/-- One step of the network. Delivering a message that was never sent is not
enabled and changes nothing. -/
def netStep (m : Machine σ ε M) (s : Net ι σ M) (ie : ι × ε) : Net ι σ M :=
  match m.receives ie.2 with
  | some msg => if msg ∈ s.wire then m.fire s ie.1 ie.2 else s
  | none => m.fire s ie.1 ie.2

/-- A step of the network fires a step of one party, whose message, if it
consumes one, is on the wire; or its message is not, and it changes nothing. -/
theorem netStep_cases (m : Machine σ ε M) (s : Net ι σ M) (ie : ι × ε) :
    (m.netStep s ie = m.fire s ie.1 ie.2 ∧ ∀ msg, m.receives ie.2 = some msg → msg ∈ s.wire) ∨
      (m.netStep s ie = s ∧ (m.receives ie.2).isSome) := by
  unfold netStep
  cases hr : m.receives ie.2 with
  | none => exact .inl ⟨rfl, fun _ h => nomatch h⟩
  | some msg =>
    by_cases hw : msg ∈ s.wire
    · refine .inl ⟨if_pos hw, fun msg' h => ?_⟩
      cases h
      exact hw
    · exact .inr ⟨if_neg hw, rfl⟩

/-- The local invariant at every party and the property of every message sent. -/
structure Inv (I : σ → Prop) (J : M → Prop) (s : Net ι σ M) : Prop where
  party : ∀ i, I (s.party i)
  wire : ∀ msg ∈ s.wire, J msg

/-- The condition `C` on the steps of a party, for the steps of a network. -/
def Local (C : σ → ε → Prop) (s : Net ι σ M) (ie : ι × ε) : Prop := C (s.party ie.1) ie.2

theorem Inv.netStep {m : Machine σ ε M} {C : σ → ε → Prop} {I : σ → Prop} {J : M → Prop}
    (hstep : ∀ s e, I s → C s e → (∀ msg, m.receives e = some msg → J msg) → I (m.step s e))
    (hsend : ∀ s e, I s → C s e → ∀ msg ∈ m.sends s e, J msg)
    {s : Net ι σ M} {ie : ι × ε} (h : Inv I J s) (hC : Local C s ie) :
    Inv I J (m.netStep s ie) := by
  rcases m.netStep_cases s ie with ⟨hs, hr⟩ | ⟨hs, _⟩
  · rw [hs]
    refine ⟨fun j => ?_, fun msg hmsg => ?_⟩
    · by_cases hj : j = ie.1
      · subst hj
        simp only [fire, Function.update_self]
        exact hstep _ _ (h.party ie.1) hC fun msg hm => h.wire msg (hr msg hm)
      · simp only [fire, Function.update_of_ne hj]
        exact h.party j
    · rcases List.mem_append.mp hmsg with hold | hnew
      · exact h.wire msg hold
      · exact hsend _ _ (h.party ie.1) hC msg hnew
  · rw [hs]
    exact h

/-- The assume-guarantee rule, for whole runs of the network. -/
theorem invariant {m : Machine σ ε M} {C : σ → ε → Prop} {I : σ → Prop} {J : M → Prop}
    (hstep : ∀ s e, I s → C s e → (∀ msg, m.receives e = some msg → J msg) → I (m.step s e))
    (hsend : ∀ s e, I s → C s e → ∀ msg ∈ m.sends s e, J msg)
    {s : Net ι σ M} {es : List (ι × ε)} (h : Inv I J s)
    (hC : Along m.netStep (Local C) s es) : Inv I J (run m.netStep s es) :=
  hC.invariant (fun _ _ hs hc => hs.netStep hstep hsend hc) h

/-! ## One party of a run -/

/-- The step of party `i` that a step of the network is, if it is enabled. -/
def heard (m : Machine σ ε M) (i : ι) (s : Net ι σ M) (ie : ι × ε) : List ε :=
  if ie.1 = i then
    match m.receives ie.2 with
    | some msg => if msg ∈ s.wire then [ie.2] else []
    | none => [ie.2]
  else []

theorem heard_cases (m : Machine σ ε M) (i : ι) (s : Net ι σ M) (ie : ι × ε) :
    m.heard i s ie = [] ∨ (ie.1 = i ∧ m.heard i s ie = [ie.2]) := by
  unfold heard
  split
  · next hi =>
    split
    · split
      · exact .inr ⟨hi, rfl⟩
      · exact .inl rfl
    · exact .inr ⟨hi, rfl⟩
  · exact .inl rfl

theorem party_netStep (m : Machine σ ε M) (i : ι) (s : Net ι σ M) (ie : ι × ε) :
    (m.netStep s ie).party i = run m.step (s.party i) (m.heard i s ie) := by
  have hfire : (m.fire s ie.1 ie.2).party i =
      run m.step (s.party i) (if ie.1 = i then [ie.2] else []) := by
    by_cases hi : ie.1 = i
    · subst hi
      rw [if_pos rfl]
      exact Function.update_self _ _ _
    · rw [if_neg hi]
      exact Function.update_of_ne (Ne.symm hi) _ _
  unfold netStep heard
  cases hr : m.receives ie.2 with
  | none => exact hfire
  | some msg =>
    by_cases hw : msg ∈ s.wire
    · simp only [if_pos hw]
      exact hfire
    · simp only [if_neg hw]
      split
      · rfl
      · rfl

end Machine

end Run
