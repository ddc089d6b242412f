import Allegro.Serving
import Allegro.Lib.Erasure

/-!
# Block messages that nobody asked for

The receiver of the block channel stores whatever it can parse, from any peer,
under the digest that the message claims. The store is read at one place only:
when the actor takes a `Verify`, for the digest of its payload. A message that
is malformed, or that claims a digest which the engine never asks to verify, can
be as wrong as it likes.

Results:
1. `step_swap`: a step of the engine side reads no more of the store than that.
2. `erases_unsolicited`: an unsolicited message is an event that leaves no trace.
3. `unsolicited_messages_invisible`: a run with such messages, and the run without
   them, give the same answers, records and forkchoice updates, and send the same.
-/

namespace Allegro

open Run Node

section Definitions

/-- The message is malformed, or claims a digest outside of `asked`. -/
def unsolicited (asked : Digest → Bool) (data : Bytes) : Bool :=
  match parseBlockMessage data with
  | none => true
  | some (digest, _) => !asked digest

variable {ρ : Type}

/-- The unsolicited messages among the events. -/
def Node.Event.unsolicited (asked : Digest → Bool) : Node.Event ρ → Bool
  | .blockMessage data => Allegro.unsolicited asked data
  | _ => false

/-- The engine asks to verify only digests in `asked`. -/
def AsksOnly (asked : Digest → Bool) (e : Node.Event ρ) : Prop :=
  ∀ msg, e = .enqueue (.verify msg) → asked msg.payload = true

/-- The actor with another store of received blocks, and other counters. -/
def Actor.swap (a : Actor) (received : Lock (HashMap Digest Bytes))
    (metrics : Option ConsensusMetrics) : Actor :=
  { a with receivedBlocks := received, metrics := metrics }

@[simp] theorem Actor.swap_validators (a : Actor) (r : Lock (HashMap Digest Bytes))
    (m : Option ConsensusMetrics) : (a.swap r m).validators = a.validators := rfl

@[simp] theorem Actor.swap_pendingBlocks (a : Actor) (r : Lock (HashMap Digest Bytes))
    (m : Option ConsensusMetrics) : (a.swap r m).pendingBlocks = a.pendingBlocks := rfl

def App.swap (s : App) (received : Lock (HashMap Digest Bytes))
    (metrics : Option ConsensusMetrics) : App :=
  { s with toActor := s.toActor.swap received metrics }

@[simp] theorem App.swap_toActor (s : App) (r : Lock (HashMap Digest Bytes))
    (m : Option ConsensusMetrics) : (s.swap r m).toActor = s.toActor.swap r m := rfl

@[simp] theorem App.swap_stage (s : App) (r : Lock (HashMap Digest Bytes))
    (m : Option ConsensusMetrics) : (s.swap r m).stage = s.stage := rfl

def Node.swap (n : Node) (received : Lock (HashMap Digest Bytes))
    (metrics : Option ConsensusMetrics) : Node :=
  { n with toApp := n.toApp.swap received metrics }

@[simp] theorem Node.swap_stage (n : Node) (r : Lock (HashMap Digest Bytes))
    (m : Option ConsensusMetrics) : (n.swap r m).stage = n.stage := rfl

@[simp] theorem Node.swap_anchor (n : Node) (r : Lock (HashMap Digest Bytes))
    (m : Option ConsensusMetrics) : (n.swap r m).anchor = n.anchor := rfl

@[simp] theorem Node.swap_sink (n : Node) (r : Lock (HashMap Digest Bytes))
    (m : Option ConsensusMetrics) : (n.swap r m).sink = n.sink := rfl

@[simp] theorem Node.swap_finalizer (n : Node) (r : Lock (HashMap Digest Bytes))
    (m : Option ConsensusMetrics) : (n.swap r m).finalizer = n.finalizer := rfl

@[simp] theorem Node.swap_blockInfo (n : Node) (r : Lock (HashMap Digest Bytes))
    (m : Option ConsensusMetrics) : (n.swap r m).blockInfo = n.blockInfo := rfl

/-- The two stores agree on the digests in `asked`. -/
structure AgreeOn (asked : Digest → Bool) (r r' : Lock (HashMap Digest Bytes)) : Prop where
  poisoned : r.poisoned = r'.poisoned
  lookup : ∀ d, asked d = true → r.value.lookup d = r'.value.lookup d

/-- The nodes are the same but for the counters, and for what they have received
outside of `asked`. -/
structure AlikeOn (asked : Digest → Bool) (n m : Node) : Prop where
  swap : ∃ received metrics, m = n.swap received metrics ∧
    AgreeOn asked n.receivedBlocks received
  mailbox : ∀ msg, .verify msg ∈ n.outstanding → asked msg.payload = true

end Definitions

variable {asked : Digest → Bool}

/-! ## The store -/

theorem AgreeOn.refl (r : Lock (HashMap Digest Bytes)) : AgreeOn asked r r := ⟨rfl, fun _ _ => rfl⟩

theorem AgreeOn.read {r r' : Lock (HashMap Digest Bytes)} (h : AgreeOn asked r r') {d : Digest}
    (hd : asked d = true) :
    (r.read.bind fun map => map.lookup d) = r'.read.bind fun map => map.lookup d := by
  unfold Lock.read
  rw [h.poisoned]
  split
  · rfl
  · exact h.lookup d hd

/-- A message is stored in both, or its digest is not in `asked`. -/
theorem AgreeOn.receiveBlock {a : Actor} {r : Lock (HashMap Digest Bytes)}
    {metrics : Option ConsensusMetrics} (h : AgreeOn asked a.receivedBlocks r) (data : Bytes) :
    AgreeOn asked (receiveBlock a data).receivedBlocks
      (Allegro.receiveBlock (a.swap r metrics) data).receivedBlocks := by
  unfold Allegro.receiveBlock
  split
  · exact h
  · next digest bytes _ =>
    have hp : (a.swap r metrics).receivedBlocks.poisoned = a.receivedBlocks.poisoned :=
      h.poisoned.symm
    rw [hp]
    split
    · exact h
    · next hl =>
      have hl : a.receivedBlocks.poisoned = false := Bool.not_eq_true _ ▸ hl
      refine ⟨?_, fun d hd => ?_⟩
      · exact (Lock.insert_poisoned _ _ _).trans
          (h.poisoned.trans (Lock.insert_poisoned _ _ _).symm)
      · by_cases hdd : d = digest
        · subst hdd
          exact (Lock.lookup_insert_self hl _ _).trans
            (Lock.lookup_insert_self (h.poisoned.symm.trans hl) _ _).symm
        · exact (Lock.lookup_insert_ne _ hdd _).trans
            ((h.lookup d hd).trans (Lock.lookup_insert_ne _ hdd _).symm)

/-- What is unsolicited is not stored where it could be read. -/
theorem AgreeOn.unsolicited {a : Actor} {r : Lock (HashMap Digest Bytes)} {data : Bytes}
    (h : AgreeOn asked a.receivedBlocks r) (hu : Allegro.unsolicited asked data = true) :
    AgreeOn asked (Allegro.receiveBlock a data).receivedBlocks r := by
  unfold Allegro.unsolicited at hu
  unfold Allegro.receiveBlock
  split
  · exact h
  · next digest bytes hp =>
    rw [hp] at hu
    split
    · exact h
    · refine ⟨(Lock.insert_poisoned _ _ _).trans h.poisoned, fun d hd => ?_⟩
      have hdd : d ≠ digest := by
        rintro rfl
        simp only [hd] at hu
        cases hu
      exact (Lock.lookup_insert_ne _ hdd _).trans (h.lookup d hd)

namespace UnsolicitedLemmas

/-! ## The handlers -/

section Handlers

variable (r : Lock (HashMap Digest Bytes)) (metrics : Option ConsensusMetrics)

theorem proposeRequest_swap (a : Actor) (msg : Propose) (nowMillis : UInt64) :
    (a.swap r metrics).proposeRequest msg nowMillis =
      ((a.proposeRequest msg nowMillis).1.swap r (metrics.map .incBlocksProposed),
        (a.proposeRequest msg nowMillis).2) := rfl

theorem proposeRecord_swap (a : Actor) (msg : Propose) (req : BuildPayloadRequest)
    (result : Except String BuiltPayload) :
    ∃ metrics', (a.swap r metrics).proposeRecord msg req result =
      ((a.proposeRecord msg req result).1.swap r metrics', (a.proposeRecord msg req result).2) := by
  cases result with
  | error reason => exact ⟨_, rfl⟩
  | ok payload => exact ⟨_, rfl⟩

theorem verifyRecord_swap (a : Actor) (msg : Verify) (result : Except String ValidationResult) :
    ∃ metrics', (a.swap r metrics).verifyRecord msg result =
      ((a.verifyRecord msg result).1.swap r metrics', (a.verifyRecord msg result).2) := by
  match result with
  | .ok (.valid m) =>
    by_cases hm : Actor.timestampsAgree m = true
    · rw [Actor.verifyRecord_accepts _ msg hm, Actor.verifyRecord_accepts _ msg hm]
      exact ⟨_, rfl⟩
    · rw [Actor.verifyRecord_disagrees _ msg hm, Actor.verifyRecord_disagrees _ msg hm]
      exact ⟨_, rfl⟩
  | .ok (.invalid _) => exact ⟨_, rfl⟩
  | .error _ => exact ⟨_, rfl⟩

variable {r} in
/-- The lookup reads the received blocks at the payload. -/
theorem verifyLookup_swap {a : Actor} {msg : Verify} (h : AgreeOn asked a.receivedBlocks r)
    (hp : asked msg.payload = true) :
    ∃ metrics', (a.swap r metrics).verifyLookup msg =
      ((a.verifyLookup msg).1.swap r metrics', (a.verifyLookup msg).2) := by
  have hbytes : ∀ pending, (a.swap r metrics).blockBytes pending msg.payload =
      a.blockBytes pending msg.payload := by
    intro pending
    exact congrArg _ (h.read hp).symm
  by_cases hv : (a.validators.lookup msg.proposer).isNone = true
  · simp only [Actor.verifyLookup, Actor.swap_validators, hv, if_true]
    exact ⟨_, rfl⟩
  · simp only [Actor.verifyLookup, Actor.swap_validators, Actor.swap_pendingBlocks, hv]
    cases a.pendingBlocks.read with
    | none => exact ⟨metrics, rfl⟩
    | some pending =>
      simp only [hbytes]
      cases a.blockBytes pending msg.payload with
      | none => exact ⟨_, rfl⟩
      | some bytes => exact ⟨metrics, rfl⟩

theorem broadcast_swap (a : Actor) (digest : Digest) (plan : Plan) (transport : Transport) :
    ∃ metrics', BlockRelay.broadcast (a.swap r metrics) digest plan transport =
      (BlockRelay.broadcast a digest plan transport).map fun p => (p.1.swap r metrics', p.2) := by
  simp only [BlockRelay.broadcast, Actor.swap_pendingBlocks]
  cases a.pendingBlocks.read with
  | none => exact ⟨metrics, rfl⟩
  | some pending =>
    simp only [Option.map_some]
    cases pending.lookup digest with
    | none => exact ⟨metrics, rfl⟩
    | some bytes =>
      cases transport.check plan.recipients with
      | true => exact ⟨_, rfl⟩
      | false => exact ⟨_, rfl⟩

variable {r}

theorem receive_swap {s : App} {msg : Message} (h : AgreeOn asked s.receivedBlocks r)
    (hp : ∀ v, msg = .verify v → asked v.payload = true) (nowMillis : UInt64) :
    ∃ metrics', (s.swap r metrics).receive nowMillis msg =
      (s.receive nowMillis msg).swap r metrics' := by
  cases msg with
  | propose msg =>
    simp only [App.receive, App.swap_toActor, proposeRequest_swap]
    cases s.toActor.proposeRequest msg nowMillis with
    | mk a req =>
      cases req with
      | none => exact ⟨_, rfl⟩
      | some req => exact ⟨_, rfl⟩
  | verify msg =>
    obtain ⟨metrics', hlookup⟩ := verifyLookup_swap metrics h (hp msg rfl)
    simp only [App.receive, App.swap_toActor, hlookup]
    cases s.toActor.verifyLookup msg with
    | mk a start =>
      cases start with
      | answer valid => exact ⟨metrics', rfl⟩
      | validate bytes ph => exact ⟨metrics', rfl⟩
  | broadcast msg => exact ⟨metrics, rfl⟩

theorem step_recv {s : App} {msg : Message} {rest : List Message} (hidle : s.stage = .idle)
    (hrecv : s.receiver = msg :: rest) (nowMillis : UInt64) :
    s.step (.recv nowMillis) = App.receive { s with receiver := rest } nowMillis msg := by
  simp only [App.step, hidle, hrecv]

theorem step_recv_still {s : App} (h : ¬ ∃ msg rest, s.stage = .idle ∧ s.receiver = msg :: rest)
    (nowMillis : UInt64) : s.step (.recv nowMillis) = s := by
  simp only [App.step]
  split
  · next msg rest hidle hrecv => exact absurd ⟨msg, rest, hidle, hrecv⟩ h
  · rfl

/-- A step that is not a block message reads the received blocks at most at the
payload of the `Verify` that it takes. -/
theorem step_swap {s : App} (h : AgreeOn asked s.receivedBlocks r)
    (hmail : ∀ msg, .verify msg ∈ s.outstanding → asked msg.payload = true) {ae : App.Event}
    (hne : ∀ data, ae ≠ .blockMessage data) :
    ∃ metrics', (s.swap r metrics).step ae = (s.step ae).swap r metrics' := by
  cases ae with
  | enqueue msg => exact ⟨metrics, rfl⟩
  | recv nowMillis =>
    by_cases htake : ∃ msg rest, s.stage = .idle ∧ s.receiver = msg :: rest
    · obtain ⟨msg, rest, hidle, hrecv⟩ := htake
      rw [step_recv hidle hrecv, step_recv (s := s.swap r metrics) hidle hrecv]
      refine receive_swap metrics (s := { s with receiver := rest }) h (fun v hv => ?_) nowMillis
      refine hmail v (List.mem_append_right _ ?_)
      rw [hrecv, hv]
      exact List.mem_cons_self
    · rw [step_recv_still htake, step_recv_still (s := s.swap r metrics) htake]
      exact ⟨metrics, rfl⟩
  | built result =>
    simp only [App.step, App.swap_stage]
    cases hstage : s.stage with
    | building msg req =>
      obtain ⟨metrics', hrec⟩ := proposeRecord_swap r metrics s.toActor msg req result
      simp only [App.finishPropose, App.swap_toActor, hrec]
      exact ⟨metrics', rfl⟩
    | idle => exact ⟨metrics, rfl⟩
    | validating msg bytes ph => exact ⟨metrics, rfl⟩
  | validated result =>
    simp only [App.step, App.swap_stage]
    cases hstage : s.stage with
    | validating msg bytes ph =>
      obtain ⟨metrics', hrec⟩ := verifyRecord_swap r metrics s.toActor msg result
      simp only [App.finishVerify, App.swap_toActor, hrec]
      exact ⟨metrics', rfl⟩
    | idle => exact ⟨metrics, rfl⟩
    | building msg req => exact ⟨metrics, rfl⟩
  | blockMessage data => exact absurd rfl (hne data)
  | blockChannelError => exact ⟨_, rfl⟩
  | broadcast digest plan transport =>
    obtain ⟨metrics', hb⟩ := broadcast_swap r metrics s.toActor digest plan transport
    simp only [App.step, App.swap_toActor, hb]
    cases BlockRelay.broadcast s.toActor digest plan transport with
    | none => exact ⟨metrics, rfl⟩
    | some p => exact ⟨metrics', rfl⟩
  | report activity =>
    simp only [App.step]
    cases activity.finalized with
    | none => exact ⟨metrics, rfl⟩
    | some d => exact ⟨_, rfl⟩

end Handlers

/-! ## The node -/

section Steps

variable {ρ : Type} {B : PayloadBuilder ρ} {n m : Node} {e : Node.Event ρ}

section Finalizer

variable (n : Node) (r : Lock (HashMap Digest Bytes)) (metrics : Option ConsensusMetrics)

theorem forward_swap (activity : Activity) :
    forward (n.swap r metrics) activity = (forward n activity).swap r metrics := by
  unfold forward
  cases activity.finalized with
  | none => rfl
  | some d =>
    simp only [Node.swap_sink]
    cases n.sink.trySend d with
    | some q => rfl
    | none => rfl

theorem finalizeStart_swap (d : Digest) :
    (n.swap r metrics).finalizeStart d = (n.finalizeStart d).swap r metrics := by
  simp only [finalizeStart, Node.swap_blockInfo]
  cases n.blockInfo.read with
  | none => rfl
  | some map =>
    simp only
    cases map.lookup d with
    | none => rfl
    | some info => rfl

theorem finalizerRecv_eq {n : Node} {d : Digest} {q : Fifo Digest} (hidle : n.finalizer = .idle)
    (hnext : n.sink.next = some (d, q)) :
    n.step B .finalizerRecv = finalizeStart { n with sink := q } d := by
  simp only [Node.step, hidle, hnext]

theorem finalizerRecv_still {n : Node}
    (h : ¬ ∃ d q, n.finalizer = .idle ∧ n.sink.next = some (d, q)) :
    n.step B .finalizerRecv = n := by
  simp only [Node.step]
  split
  · next d q hidle hnext => exact absurd ⟨d, q, hidle, hnext⟩ h
  · rfl

theorem finalizeFinish_swap (d : Digest) (hash : B256) (number : UInt64)
    (result : Except String ForkchoiceUpdated) :
    (n.swap r metrics).finalizeFinish d hash number result =
      (n.finalizeFinish d hash number result).swap r metrics := by
  unfold finalizeFinish
  cases result with
  | error reason => rfl
  | ok fcu =>
    simp only
    cases fcu.payloadStatus.isValid with
    | true => rfl
    | false => rfl

end Finalizer

theorem appStep_swap {r : Lock (HashMap Digest Bytes)} (metrics : Option ConsensusMetrics)
    (h : AgreeOn asked n.receivedBlocks r)
    (hmail : ∀ msg, .verify msg ∈ n.outstanding → asked msg.payload = true)
    (hne : ∀ data, e ≠ .blockMessage data) :
    ∃ metrics', (n.swap r metrics).appStep B e = (n.appStep B e).swap r metrics' := by
  have hevent : (n.swap r metrics).appEvent B e = n.appEvent B e := by
    cases e <;> rfl
  unfold appStep
  rw [hevent]
  cases hae : n.appEvent B e with
  | none => exact ⟨metrics, rfl⟩
  | some ae =>
    have hne' : ∀ data, ae ≠ .blockMessage data := by
      rintro data rfl
      cases drives_of_appEvent hae
      exact hne data rfl
    obtain ⟨metrics', hs⟩ := step_swap metrics h hmail hne'
    refine ⟨metrics', ?_⟩
    simp only [Node.swap, hs]

/-- What is not a block message does the same to both nodes. -/
theorem node_step_swap {r : Lock (HashMap Digest Bytes)} (metrics : Option ConsensusMetrics)
    (h : AgreeOn asked n.receivedBlocks r)
    (hmail : ∀ msg, .verify msg ∈ n.outstanding → asked msg.payload = true)
    (hne : ∀ data, e ≠ .blockMessage data) :
    ∃ metrics', (n.swap r metrics).step B e = (n.step B e).swap r metrics' := by
  cases e with
  | buildFcu =>
    refine ⟨metrics, ?_⟩
    simp only [Node.step, Node.swap_stage, Node.swap_anchor]
    cases n.stage with
    | building msg req => cases n.anchor <;> rfl
    | idle => rfl
    | validating msg bytes ph => rfl
  | report activity =>
    obtain ⟨metrics', hs⟩ := appStep_swap (B := B) (e := .report activity) metrics h hmail hne
    refine ⟨metrics', ?_⟩
    simp only [Node.step, hs, forward_swap]
  | finalizerRecv =>
    refine ⟨metrics, ?_⟩
    by_cases htake : ∃ d q, n.finalizer = .idle ∧ n.sink.next = some (d, q)
    · obtain ⟨d, q, hidle, hnext⟩ := htake
      rw [finalizerRecv_eq hidle hnext, finalizerRecv_eq (n := n.swap r metrics) hidle hnext]
      exact finalizeStart_swap { n with sink := q } r metrics d
    · rw [finalizerRecv_still htake, finalizerRecv_still (n := n.swap r metrics) htake]
  | finalizerAnswer result =>
    refine ⟨metrics, ?_⟩
    simp only [Node.step, Node.swap_finalizer]
    cases n.finalizer with
    | submitting d hash number => exact finalizeFinish_swap n r metrics d hash number result
    | idle => rfl
  | blockMessage data => exact absurd rfl (hne data)
  | enqueue msg => exact appStep_swap (B := B) metrics h hmail hne
  | recv nowMillis => exact appStep_swap (B := B) metrics h hmail hne
  | built env => exact appStep_swap (B := B) metrics h hmail hne
  | validated env => exact appStep_swap (B := B) metrics h hmail hne
  | blockChannelError => exact appStep_swap (B := B) metrics h hmail hne
  | broadcast digest plan transport => exact appStep_swap (B := B) metrics h hmail hne

/-- A block message touches the received blocks and the counters only. -/
theorem receiveBlock_eq_swap (a : Actor) (data : Bytes) :
    ∃ r metrics, receiveBlock a data = a.swap r metrics := by
  unfold receiveBlock
  split
  · exact ⟨a.receivedBlocks, a.metrics, rfl⟩
  · split
    · exact ⟨a.receivedBlocks, _, rfl⟩
    · exact ⟨_, _, rfl⟩

theorem blockMessage_step_swap (n : Node) (r : Lock (HashMap Digest Bytes))
    (metrics : Option ConsensusMetrics) (data : Bytes) :
    ∃ metrics', (n.swap r metrics).step B (.blockMessage data) =
      (n.step B (.blockMessage data)).swap
        (receiveBlock (n.toActor.swap r metrics) data).receivedBlocks metrics' := by
  obtain ⟨r', metrics', hswap⟩ := receiveBlock_eq_swap (n.toActor.swap r metrics) data
  obtain ⟨r₀, metrics₀, hown⟩ := receiveBlock_eq_swap n.toActor data
  have hleft : (n.swap r metrics).step B (.blockMessage data) = n.swap r' metrics' := by
    show { n.swap r metrics with toActor := receiveBlock (n.toActor.swap r metrics) data } = _
    rw [hswap]
    rfl
  have hright : n.step B (.blockMessage data) = n.swap r₀ metrics₀ := by
    show { n with toActor := receiveBlock n.toActor data } = _
    rw [hown]
    rfl
  refine ⟨metrics', ?_⟩
  rw [hleft, hright, hswap]
  rfl

/-- Unsolicited messages leave no trace on an engine that asks for others. -/
theorem erases_unsolicited (B : PayloadBuilder ρ) (asked : Digest → Bool) :
    Erases (Node.step B) (AlikeOn asked) (AsksOnly asked) (Node.Event.unsolicited asked) where
  visible := by
    rintro n m e hask hvisible ⟨⟨r, metrics, rfl, hr⟩, hmail⟩
    refine ⟨?_, fun msg hmem => ?_⟩
    · by_cases hb : ∃ data, e = .blockMessage data
      · obtain ⟨data, rfl⟩ := hb
        obtain ⟨metrics', hs⟩ := blockMessage_step_swap (B := B) n r metrics data
        exact ⟨_, metrics', hs, hr.receiveBlock data⟩
      · have hne : ∀ data, e ≠ .blockMessage data := fun data he => hb ⟨data, he⟩
        obtain ⟨metrics', hs⟩ := node_step_swap (B := B) metrics hr hmail hne
        refine ⟨r, metrics', hs, ?_⟩
        rw [receivedBlocks_step hne]
        exact hr
    · rcases ServingLemmas.mem_outstanding_step hmem with hold | rfl
      · exact hmail msg hold
      · exact hask msg rfl
  invisible := by
    rintro n m e hask hhidden ⟨⟨r, metrics, rfl, hr⟩, hmail⟩
    cases e with
    | blockMessage data =>
      obtain ⟨r₀, metrics₀, hown⟩ := receiveBlock_eq_swap n.toActor data
      have hstep : n.step B (.blockMessage data) = n.swap r₀ metrics₀ := by
        show { n with toActor := receiveBlock n.toActor data } = _
        rw [hown]
        rfl
      refine ⟨⟨r, metrics, ?_, hr.unsolicited hhidden⟩, fun msg hmem => ?_⟩
      · rw [hstep]
        rfl
      · rw [hstep] at hmem
        exact hmail msg hmem
    | _ => cases hhidden

end Steps

end UnsolicitedLemmas

open UnsolicitedLemmas

/-- What a run of a node shows to the engine, to the execution layer and to the
finalizer. -/
structure SameVisible (n m : Node) : Prop where
  answers : n.answers = m.answers
  blockInfo : n.blockInfo = m.blockInfo
  pendingBlocks : n.pendingBlocks = m.pendingBlocks
  proposals : n.proposals = m.proposals
  outstanding : n.outstanding = m.outstanding
  log : n.log = m.log
  tracker : n.tracker = m.tracker

/-- For every run of a production node whose engine asks to verify only digests in
`asked`: leave out the block messages that are malformed and those that claim
other digests. The node answers, records, proposes and submits the same, and
what it sends on the block channel is the same. -/
theorem unsolicited_messages_invisible {A : Alloy} (c : Config A) (asked : Digest → Bool)
    (es : List (Node.Event (Reth A)))
    (hask : ∀ msg, .verify msg ∈ enqueued es → asked msg.payload = true) :
    let rest := visibleEvents (Node.Event.unsolicited asked) es
    SameVisible (run (prodStep A) (Node.start c) es) (run (prodStep A) (Node.start c) rest) ∧
      trace (prodStep A) (machine A).sends (Node.start c) es =
        trace (prodStep A) (machine A).sends (Node.start c) rest := by
  have hD : ∀ e ∈ es, AsksOnly asked e := by
    rintro e he msg rfl
    exact hask msg (List.mem_filterMap.mpr ⟨_, he, rfl⟩)
  have hstart : AlikeOn asked (Node.start c) (Node.start c) :=
    ⟨⟨_, _, rfl, .refl _⟩, fun _ h => absurd h List.not_mem_nil⟩
  have herase := erases_unsolicited (createEnginePayloadBuilder A) asked
  constructor
  · obtain ⟨r, metrics, hm, -⟩ := (herase.run hstart hD).swap
    rw [hm]
    exact ⟨rfl, rfl, rfl, rfl, rfl, rfl, rfl⟩
  · refine herase.trace ?_ ?_ hstart hD
    · rintro n m e - - ⟨⟨r, metrics, rfl, -⟩, -⟩
      cases e with
      | broadcast digest plan transport =>
        obtain ⟨metrics', hb⟩ := broadcast_swap r metrics n.toActor digest plan transport
        simp only [machine, App.sends, Node.swap, App.swap_toActor, hb]
        cases BlockRelay.broadcast n.toActor digest plan transport with
        | none => rfl
        | some p =>
          obtain ⟨a, submission⟩ := p
          cases submission <;> rfl
      | _ => rfl
    · intro n e hhidden
      cases e with
      | blockMessage data => rfl
      | _ => cases hhidden

/-- `one` is received and verified; in between a peer sends a truncated message and
junk under the digest of `two`. -/
def floodedRun : List (Node.Event (Reth sampleAlloy)) :=
  [.blockMessage (wireMessage SampleHeader.one.digest [2]), .blockMessage [1, 2, 3],
    .enqueue (.verify (sampleVerify .EMPTY SampleHeader.one.digest 1)), .recv 0,
    .blockMessage (wireMessage SampleHeader.two.digest [9]), .validated (sampleReth .one)]

theorem flood_invisible :
    let rest := [.blockMessage (wireMessage SampleHeader.one.digest [2]),
      .enqueue (.verify (sampleVerify .EMPTY SampleHeader.one.digest 1)), .recv 0,
      .validated (sampleReth .one)]
    SameVisible (run (prodStep sampleAlloy) (Node.start sampleConfig) floodedRun)
      (run (prodStep sampleAlloy) (Node.start sampleConfig) rest) :=
  (unsolicited_messages_invisible sampleConfig (fun d => d = SampleHeader.one.digest) floodedRun
    (by
      intro msg hmem
      cases List.mem_singleton.mp hmem
      rfl)).1

end Allegro
