import Allegro.EngineSteps

/-!
# Arrival of blocks and of their proposals

Proposals and block bytes reach a node on two channels, with no order between
them. `handle_verify` looks the bytes up once, when the actor takes the message,
and answers `false` if they are not there. In a network of honest nodes this is
the only way to a `false` for the block of a known proposer: bytes that are there
come from an honest builder, and the builders accept them.

Results:
1. `producedStores_step`, `producedMessage_sends`: honest nodes hold and send
   blocks of honest builders only.
2. `verify_false_iff_bytes_absent`: in every run of the network, `false` is the
   answer exactly at the steps that take a `Verify` before its bytes have arrived.
3. `verify_before_block_answered_false`: a run in which this happens to an honest
   leader's block.
-/

namespace Allegro

open Run Actor

/-! ## The network -/

/-- Nodes with arbitrary payload builders on a network that carries their block
messages. -/
def App.machine : Machine App App.Event Bytes where
  step := App.step
  receives := App.Event.receives
  sends := App.sends

/-- The start of a network of nodes. -/
def App.netStart {ι : Type} (validators : ι → ValidatorSet)
    (metrics : ι → Option ConsensusMetrics) (g : GenesisInfo) : Net ι App Bytes where
  party := fun i => App.new (validators i) (metrics i) g
  wire := []

section Definitions

variable (Produced : Bytes → Prop)

/-- An honest builder builds blocks of `Produced`, and accepts every such block. -/
def HonestBuilder (s : App) : App.Event → Prop
  | .built (.ok payload) => Produced payload.blockBytes
  | .validated result =>
    match s.stage with
    | .validating _ bytes _ => Produced bytes → Accepts result
    | _ => True
  | _ => True

/-- The actor takes `msg` from its mailbox. -/
def Takes (s : App) (e : App.Event) (msg : Verify) : Prop :=
  s.stage = .idle ∧ (∃ rest, s.receiver = .verify msg :: rest) ∧ ∃ nowMillis, e = .recv nowMillis

/-- The node has no bytes for the digest. -/
def BytesAbsent (s : App) (d : Digest) : Prop :=
  s.pendingBlocks.value.lookup d = none ∧ s.receivedBlocks.value.lookup d = none

/-- How the step `e` from `s` to `s'` answers `msg`: `false` exactly when the
message is taken without its bytes. With its bytes it goes to the builder, and
what the builder answers makes it `true`. -/
structure AnswersByArrival (s : App) (e : App.Event) (s' : App) (msg : Verify) : Prop where
  rejected : s'.answers = s.answers ++ [.verified msg false] ↔
    Takes s e msg ∧ BytesAbsent s msg.payload
  validates : Takes s e msg → ¬ BytesAbsent s msg.payload →
    s'.answers = s.answers ∧ ∃ bytes ph, s'.stage = .validating msg bytes ph
  accepted : ∀ bytes ph result, s.stage = .validating msg bytes ph → e = .validated result →
    s'.answers = s.answers ++ [.verified msg true]

/-- Every block the node holds is one of `Produced`. -/
structure ProducedStores (s : App) : Prop where
  healthy : s.Healthy
  pending : ∀ d bytes, s.pendingBlocks.value.lookup d = some bytes → Produced bytes
  received : ∀ d bytes, s.receivedBlocks.value.lookup d = some bytes → Produced bytes
  validating : ∀ msg bytes ph, s.stage = .validating msg bytes ph → Produced bytes

def ProducedMessage (data : Bytes) : Prop :=
  ∀ d bytes, parseBlockMessage data = some (d, bytes) → Produced bytes

end Definitions

namespace ArrivalLemmas

variable {Produced : Bytes → Prop} {s : App} {e : App.Event} {msg : Verify}

/-! ## What honest nodes hold and send -/

theorem producedStores_new (validators : ValidatorSet) (metrics : Option ConsensusMetrics)
    (g : GenesisInfo) : ProducedStores Produced (App.new validators metrics g) where
  healthy := App.healthy_new validators metrics g
  pending := fun _ _ h => (nomatch h)
  received := fun _ _ h => (nomatch h)
  validating := fun _ _ _ h => (nomatch h)

theorem producedStores_step (h : ProducedStores Produced s) (hC : HonestBuilder Produced s e)
    (hmsg : ∀ data, e.receives = some data → ProducedMessage Produced data) :
    ProducedStores Produced (s.step e) where
  healthy := App.healthy_step e h.healthy
  pending := by
    intro d bytes hb
    rcases App.pending_step_cases hb with hold | ⟨_, _, _, _, rfl, _, rfl⟩
    · exact h.pending d bytes hold
    · exact hC
  received := by
    intro d bytes hb
    rcases App.received_step_cases hb with hold | ⟨data, rfl, hp⟩
    · exact h.received d bytes hold
    · exact hmsg data rfl d bytes hp
  validating := by
    intro msg bytes ph hstage
    rcases App.validating_step_cases hstage with hold | hold | hold
    · exact h.validating msg bytes ph hold
    · exact h.pending msg.payload bytes hold
    · exact h.received msg.payload bytes hold

theorem producedMessage_sends (h : ProducedStores Produced s) {data : Bytes}
    (hmem : data ∈ s.sends e) : ProducedMessage Produced data := by
  obtain ⟨digest, bytes, hlookup, rfl⟩ := App.mem_sends hmem
  intro d bytes' hp
  rw [parse_wireMessage] at hp
  cases hp
  exact h.pending digest bytes hlookup

/-! ## The lookup -/

/-- The step that takes a `Verify` answers `false`, or hands the bytes to the builder. -/
theorem takes_step (hl : s.Healthy) (hv : (s.validators.lookup msg.proposer).isSome)
    (ht : Takes s e msg) :
    (BytesAbsent s msg.payload ∧ (s.step e).answers = s.answers ++ [.verified msg false]) ∨
      (¬ BytesAbsent s msg.payload ∧ (s.step e).answers = s.answers ∧
        ∃ bytes ph, (s.step e).stage = .validating msg bytes ph) := by
  obtain ⟨hidle, ⟨rest, hrecv⟩, nowMillis, rfl⟩ := ht
  have hbytes := blockBytes_eq_none hl msg.payload
  obtain ⟨habsent, hpresent⟩ := verifyLookup_known (a := { s.toActor with receiver := rest })
    hl.pendingBlocks hv
  simp only [App.step, hidle, hrecv, App.receive]
  cases hb : s.blockBytes s.pendingBlocks.value msg.payload with
  | none =>
    have hlookup := habsent hb
    refine .inl ⟨hbytes.mp hb, ?_⟩
    split
    · next a valid h =>
      rw [h] at hlookup
      cases hlookup
      rfl
    · next a bytes ph h =>
      rw [h] at hlookup
      cases hlookup
  | some bytes =>
    rw [hpresent bytes hb]
    refine .inr ⟨fun habs => ?_, rfl, bytes, _, rfl⟩
    rw [hbytes.mpr habs] at hb
    cases hb

/-! ## One step -/

/-- A `false` for a known proposer is sent by the step that takes the message:
an honest builder refuses nothing that the node holds. -/
theorem takes_of_rejected (h : ProducedStores Produced s) (hC : HonestBuilder Produced s e)
    (hans : (s.step e).answers = s.answers ++ [.verified msg false]) : Takes s e msg := by
  rcases App.answers_step s e with hs | ⟨answer, hr, hs⟩
  · rw [hs] at hans
    simp at hans
  · have ha : answer = .verified msg false := by
      rw [hs] at hans
      simpa using hans
    subst ha
    cases hr with
    | rejected hidle hrecv _ => exact ⟨hidle, ⟨_, hrecv⟩, _, rfl⟩
    | refused hstage hna =>
      simp only [HonestBuilder, hstage] at hC
      exact absurd (hC (h.validating _ _ _ hstage)) hna

theorem answersByArrival_step (h : ProducedStores Produced s) (hC : HonestBuilder Produced s e)
    (hv : (s.validators.lookup msg.proposer).isSome) : AnswersByArrival s e (s.step e) msg where
  rejected := by
    constructor
    · intro hans
      have ht := takes_of_rejected h hC hans
      rcases takes_step h.healthy hv ht with ⟨habs, _⟩ | ⟨_, hsame, _⟩
      · exact ⟨ht, habs⟩
      · rw [hsame] at hans
        simp at hans
    · rintro ⟨ht, habs⟩
      rcases takes_step h.healthy hv ht with ⟨_, hans⟩ | ⟨hn, _, _⟩
      · exact hans
      · exact absurd habs hn
  validates := by
    intro ht habs
    rcases takes_step h.healthy hv ht with ⟨hn, _⟩ | ⟨_, hsame, hstage⟩
    · exact absurd hn habs
    · exact ⟨hsame, hstage⟩
  accepted := by
    rintro bytes ph result hstage rfl
    simp only [HonestBuilder, hstage] at hC
    obtain ⟨m, rfl, hm⟩ := hC (h.validating _ _ _ hstage)
    simp only [App.step, hstage, App.finishVerify, App.respond, verifyRecord_accepts _ msg hm]

/-- A message that was never sent is not delivered, and nothing is answered. -/
theorem answersByArrival_skip (hr : e.receives.isSome) : AnswersByArrival s e s msg := by
  cases e with
  | blockMessage data =>
    refine ⟨⟨fun h => ?_, fun h => ?_⟩, fun h => ?_, fun _ _ _ _ h => (nomatch h)⟩
    · simp at h
    · obtain ⟨⟨_, _, _, he⟩, _⟩ := h
      cases he
    · obtain ⟨_, _, _, he⟩ := h
      cases he
  | _ => cases hr

end ArrivalLemmas

open ArrivalLemmas

section Network

variable {ι : Type} [DecidableEq ι] {Produced : Bytes → Prop}

theorem validators_run (validators : ι → ValidatorSet) (metrics : ι → Option ConsensusMetrics)
    (g : GenesisInfo) (es : List (ι × App.Event)) (i : ι) :
    ((run App.machine.netStep (App.netStart validators metrics g) es).party i).validators =
      validators i := by
  refine run_invariant (P := fun net : Net ι App Bytes =>
    ∀ i, (net.party i).validators = validators i) ?_ (fun _ => rfl) es i
  intro net ie h j
  rcases App.machine.netStep_cases net ie with ⟨hs, _⟩ | ⟨hs, _⟩
  · rw [hs]
    by_cases hj : j = ie.1
    · subst hj
      simp only [Machine.fire, Function.update_self]
      exact (App.validators_step _ _).trans (h ie.1)
    · simp only [Machine.fire, Function.update_of_ne hj]
      exact h j
  · rw [hs]
    exact h j

/-- In a network of honest nodes whose builders accept every block that an honest
builder produced, at every step of every run, and for every `Verify` whose
proposer is in the validator set: the step answers `false` exactly when the
actor takes the message and the node holds no bytes for the payload. If it holds
bytes, the message goes to the builder, and the answer is `true` once the
builder answers. -/
theorem verify_false_iff_bytes_absent (validators : ι → ValidatorSet)
    (metrics : ι → Option ConsensusMetrics) (g : GenesisInfo) (es : List (ι × App.Event))
    (hC : Along App.machine.netStep (Machine.Local (HonestBuilder Produced))
      (App.netStart validators metrics g) es)
    {es₁ es₂ : List (ι × App.Event)} {i : ι} {e : App.Event} (hes : es = es₁ ++ (i, e) :: es₂)
    (msg : Verify) (hv : ((validators i).lookup msg.proposer).isSome) :
    AnswersByArrival ((run App.machine.netStep (App.netStart validators metrics g) es₁).party i) e
      ((run App.machine.netStep (App.netStart validators metrics g) (es₁ ++ [(i, e)])).party i)
      msg := by
  subst hes
  have hinv : Machine.Inv (ProducedStores Produced) (ProducedMessage Produced)
      (run App.machine.netStep (App.netStart validators metrics g) es₁) := Machine.invariant
    (fun s e hs hc hmsg => producedStores_step hs hc hmsg)
    (fun s e hs _ data hmem => producedMessage_sends hs hmem)
    ⟨fun i => producedStores_new _ _ _, fun _ h => (nomatch h)⟩ (along_append.mp hC).1
  rw [run_concat]
  rcases App.machine.netStep_cases
    (run App.machine.netStep (App.netStart validators metrics g) es₁) (i, e) with
    ⟨hs, _⟩ | ⟨hs, hr⟩
  · rw [hs]
    simp only [Machine.fire, Function.update_self]
    refine answersByArrival_step (hinv.party i) hC.at ?_
    rw [validators_run]
    exact hv
  · rw [hs]
    exact answersByArrival_skip hr

end Network

/-! ## Two runs -/

namespace ArrivalLemmas

/-- The digest of the leader's block. -/
def digest : Digest := ⟨B256.repeatByte 2⟩

def verify : Verify := ⟨(0, .EMPTY), digest, sampleKey, ⟨0, 1⟩⟩

/-- Two nodes that know the leader. The leader is `true`. -/
def network : Net Bool App Bytes :=
  App.netStart (fun _ => sampleValidators) (fun _ => none) sampleGenesisInfo

/-- The leader is asked for a block on genesis, builds it and broadcasts it. -/
def leaderSteps : List (Bool × App.Event) :=
  [(true, .enqueue (.propose ⟨(0, .EMPTY), ⟨0, 1⟩, sampleKey⟩)), (true, .recv 11000),
    (true, .built (.ok ⟨[2], digest.get, 1, 11000⟩)),
    (true, .broadcast digest (.propose ⟨0, 1⟩) ⟨fun _ => true, true⟩)]

/-- The other node gets the block, then the proposal. -/
def blockFirst : List (Bool × App.Event) :=
  leaderSteps ++ [(false, .blockMessage (wireMessage digest [2])),
    (false, .enqueue (.verify verify)), (false, .recv 0),
    (false, .validated (.ok (.valid ⟨digest.get, 1, 11, 11000⟩)))]

/-- The other node gets the proposal, then the block. -/
def proposalFirst : List (Bool × App.Event) :=
  leaderSteps ++ [(false, .enqueue (.verify verify)), (false, .recv 0),
    (false, .blockMessage (wireMessage digest [2]))]

end ArrivalLemmas

/-- With the block there, the builder's answer makes it `true`. -/
theorem block_before_verify_answered_true :
    ((run App.machine.netStep network blockFirst).party false).answers =
      ((run App.machine.netStep network (blockFirst.take 7)).party false).answers ++
        [.verified verify true] := by
  have hC : Along App.machine.netStep (Machine.Local (HonestBuilder fun bytes => bytes = [2]))
      network blockFirst :=
    ⟨trivial, trivial, rfl, trivial, trivial, trivial, trivial, fun _ => ⟨_, rfl, rfl⟩, trivial⟩
  have hes : blockFirst = blockFirst.take 7 ++
      [(false, .validated (.ok (.valid ⟨digest.get, 1, 11, 11000⟩)))] := rfl
  have h := verify_false_iff_bytes_absent _ _ sampleGenesisInfo blockFirst hC hes verify (by decide)
  exact h.accepted [2] B256.ZERO (.ok (.valid ⟨digest.get, 1, 11, 11000⟩)) (by decide) rfl

/-- An honest leader of the validator set answers its `Propose` with a digest and
broadcasts the block, the builders accept every block produced, and yet the
`Verify` that is handled before the block arrives is answered `false`. -/
theorem verify_before_block_answered_false :
    Along App.machine.netStep (Machine.Local (HonestBuilder fun bytes => bytes = [2])) network
        proposalFirst ∧
      ((network.party false).validators.lookup sampleKey).isSome ∧
      .proposed ⟨(0, .EMPTY), ⟨0, 1⟩, sampleKey⟩ (some digest) ∈
        ((run App.machine.netStep network proposalFirst).party true).answers ∧
      ((run App.machine.netStep network proposalFirst).party false).receivedBlocks.value.lookup
        digest = some [2] ∧
      ((run App.machine.netStep network proposalFirst).party false).answers =
        [.verified verify false] := by
  refine ⟨?_, by decide, by decide, by decide, by decide⟩
  exact ⟨trivial, trivial, rfl, trivial, trivial, trivial, trivial, trivial⟩

end Allegro
