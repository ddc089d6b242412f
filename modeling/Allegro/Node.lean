import Allegro.Builder
import Allegro.EngineSteps
import Allegro.Lib.Fifo

/-!
# A node

The engine side (`App`) wired to the execution layer as `run_consensus` does it
(`bin/allegro/src/main.rs`): a payload builder that reads the forkchoice
tracker, the finalization channel that `MetricsReporter::report` writes to, and
the finalizer task (`crates/node/src/finalizer.rs`) that reads it.

The build closure reads the tracker and submits its forkchoice update at a step
of its own (`buildFcu`), between the actor's lookup of the parent and the
builder's answer. The finalizer looks a digest up and submits a forkchoice
update at one step (`finalizerRecv`), and writes the tracker when the answer
arrives (`finalizerAnswer`). Steps of all tasks interleave freely.

`Node` is generic in the payload builder `B` and the answers `ρ` of its
environment. `Node.log` keeps what the node says to the execution layer and what
becomes of each finalization report.
-/

namespace Allegro

/-- What the finalizer task does: wait for a digest, or wait for the answer to
the forkchoice update of one. -/
inductive FinalizerStage
  | idle
  | submitting (digest : Digest) (hash : B256) (number : UInt64)
deriving DecidableEq

/-- What the node submits and reports. -/
inductive Output
  | buildFcu (msg : Propose) (state : ForkchoiceState)
  | forwarded (digest : Digest)
  | dropped (digest : Digest)
  | notFound (digest : Digest)
  | finalizeFcu (digest : Digest) (state : ForkchoiceState)
  | finalized (digest : Digest) (hash : B256) (number : UInt64)
  | finalizeFailed (digest : Digest) (hash : B256)
deriving DecidableEq

/-- The forkchoice state of a finalization: head, safe and finalized are one block. -/
def finalizeForkchoice (hash : B256) : ForkchoiceState := ⟨hash, hash, hash⟩

/-- A finalization that the finalizer brings to the execution layer. -/
structure Finalization where
  digest : Digest
  hash : B256
  number : UInt64
deriving DecidableEq

/-- What the tracker is set to. -/
def Finalization.anchor (f : Finalization) : Finalized := (f.hash, f.number)

/-- A node: the engine side, the tracker, the anchor the running build has read,
the finalization channel and the finalizer. -/
structure Node extends App where
  tracker : ForkchoiceTracker
  anchor : Option Finalized
  sink : Fifo Digest
  finalizer : FinalizerStage
  log : List Output

namespace Node

variable {ρ : Type}

inductive Event (ρ : Type)
  | enqueue (msg : Message)
  | recv (nowMillis : UInt64)
  | buildFcu
  | built (env : ρ)
  | validated (env : ρ)
  | blockMessage (data : Bytes)
  | blockChannelError
  | broadcast (digest : Digest) (plan : Plan) (transport : Transport)
  | report (activity : Activity)
  | finalizerRecv
  | finalizerAnswer (result : Except String ForkchoiceUpdated)

/-- The environment's answers that an event carries. -/
def Event.env : Event ρ → Option ρ
  | .built env => some env
  | .validated env => some env
  | _ => none

/-- The start of a node. The finalization channel of `run_consensus` has 32
slots and one more for each sender. -/
def new (validators : ValidatorSet) (metrics : Option ConsensusMetrics) (g : GenesisInfo)
    (senders : Nat) : Node where
  toApp := App.new validators metrics g
  tracker := ForkchoiceTracker.new g.hash
  anchor := none
  sink := Fifo.empty (32 + senders)
  finalizer := .idle
  log := []

/-- What an event means on the engine side. A builder's answer is the answer to
the request the actor waits on. -/
def appEvent (B : PayloadBuilder ρ) (n : Node) : Event ρ → Option App.Event
  | .enqueue msg => some (.enqueue msg)
  | .recv nowMillis => some (.recv nowMillis)
  | .built env =>
    match n.stage, n.anchor with
    | .building _ req, some finalized => some (.built (B.buildPayload env finalized req))
    | _, _ => none
  | .validated env =>
    match n.stage with
    | .validating _ bytes parentHash => some (.validated (B.validateBlock env bytes parentHash))
    | _ => none
  | .blockMessage data => some (.blockMessage data)
  | .blockChannelError => some .blockChannelError
  | .broadcast digest plan transport => some (.broadcast digest plan transport)
  | .report activity => some (.report activity)
  | .buildFcu => none
  | .finalizerRecv => none
  | .finalizerAnswer _ => none

/-- `MetricsReporter::report`, the forwarding of a finalization: a full channel
drops the digest. -/
def forward (n : Node) (activity : Activity) : Node :=
  match activity.finalized with
  | none => n
  | some d =>
    match n.sink.trySend d with
    | some sink => { n with sink := sink, log := n.log ++ [.forwarded d] }
    | none => { n with log := n.log ++ [.dropped d] }

/-- The finalizer takes a digest from the channel. One that is not recorded is skipped. -/
def finalizeStart (n : Node) (d : Digest) : Node :=
  match n.blockInfo.read with
  | none => n
  | some map =>
    match map.lookup d with
    | none => { n with log := n.log ++ [.notFound d] }
    | some info =>
      { n with
        finalizer := .submitting d info.hash info.number
        log := n.log ++ [.finalizeFcu d (finalizeForkchoice info.hash)] }

/-- The answer to the finalizer's forkchoice update. -/
def finalizeFinish (n : Node) (d : Digest) (hash : B256) (number : UInt64)
    (result : Except String ForkchoiceUpdated) : Node :=
  let failed := { n with finalizer := .idle, log := n.log ++ [.finalizeFailed d hash] }
  match result with
  | .ok fcu =>
    if fcu.payloadStatus.isValid then
      { n with
        tracker := n.tracker.setFinalized hash number
        finalizer := .idle
        log := n.log ++ [.finalized d hash number] }
    else failed
  | .error _ => failed

/-- The engine side takes its step. A build that ends gives its anchor up. -/
def appStep (B : PayloadBuilder ρ) (n : Node) (e : Event ρ) : Node :=
  match n.appEvent B e with
  | none => n
  | some ae =>
    { n with
      toApp := n.toApp.step ae
      anchor := match e with
        | .built _ => none
        | _ => n.anchor }

def step (B : PayloadBuilder ρ) (n : Node) (e : Event ρ) : Node :=
  match e with
  | .buildFcu =>
    match n.stage, n.anchor with
    | .building msg req, none =>
      { n with
        anchor := some n.tracker.finalized
        log := n.log ++ [.buildFcu msg (buildForkchoice n.tracker.finalized req)] }
    | _, _ => n
  | .report activity => forward (n.appStep B (.report activity)) activity
  | .finalizerRecv =>
    match n.finalizer, n.sink.next with
    | .idle, some (d, sink) => finalizeStart { n with sink := sink } d
    | _, _ => n
  | .finalizerAnswer result =>
    match n.finalizer with
    | .submitting d hash number => n.finalizeFinish d hash number result
    | .idle => n
  | e => n.appStep B e

/-! ## What one step can do -/

section Steps

variable {B : PayloadBuilder ρ}

/-- What the event `e` of the node means on the engine side. A builder's answer is
the answer to the request that the actor waits on. -/
inductive Drives (B : PayloadBuilder ρ) (n : Node) : Event ρ → App.Event → Prop
  | enqueue {msg : Message} : Drives B n (.enqueue msg) (.enqueue msg)
  | recv {nowMillis : UInt64} : Drives B n (.recv nowMillis) (.recv nowMillis)
  | built {msg : Propose} {req : BuildPayloadRequest} {finalized : Finalized} {env : ρ} :
      n.stage = .building msg req → n.anchor = some finalized →
      Drives B n (.built env) (.built (B.buildPayload env finalized req))
  | validated {msg : Verify} {bytes : Bytes} {ph : B256} {env : ρ} :
      n.stage = .validating msg bytes ph →
      Drives B n (.validated env) (.validated (B.validateBlock env bytes ph))
  | blockMessage {data : Bytes} : Drives B n (.blockMessage data) (.blockMessage data)
  | blockChannelError : Drives B n .blockChannelError .blockChannelError
  | broadcast {digest : Digest} {plan : Plan} {transport : Transport} :
      Drives B n (.broadcast digest plan transport) (.broadcast digest plan transport)
  | report {activity : Activity} : Drives B n (.report activity) (.report activity)

theorem drives_of_appEvent {n : Node} {e : Event ρ} {ae : App.Event}
    (h : n.appEvent B e = some ae) : Drives B n e ae := by
  cases e with
  | built env =>
    simp only [appEvent] at h
    split at h
    · next msg req finalized hstage hanchor =>
      cases h
      exact .built hstage hanchor
    · cases h
  | validated env =>
    simp only [appEvent] at h
    split at h
    · next msg bytes ph hstage =>
      cases h
      exact .validated hstage
    · cases h
  | enqueue msg => cases h; exact .enqueue
  | recv nowMillis => cases h; exact .recv
  | blockMessage data => cases h; exact .blockMessage
  | blockChannelError => cases h; exact .blockChannelError
  | broadcast digest plan transport => cases h; exact .broadcast
  | report activity => cases h; exact .report
  | buildFcu => cases h
  | finalizerRecv => cases h
  | finalizerAnswer result => cases h

/-- A step takes one step of the engine side, or none. -/
theorem toApp_step (n : Node) (e : Event ρ) :
    (n.step B e).toApp = n.toApp ∨
      ∃ ae, Drives B n e ae ∧ (n.step B e).toApp = n.toApp.step ae := by
  have happ : ∀ e, (n.appStep B e).toApp = n.toApp ∨
      ∃ ae, Drives B n e ae ∧ (n.appStep B e).toApp = n.toApp.step ae := by
    intro e
    unfold appStep
    split
    · exact .inl rfl
    · next ae hae => exact .inr ⟨ae, drives_of_appEvent hae, rfl⟩
  cases e with
  | buildFcu =>
    refine .inl ?_
    simp only [step]
    split
    · rfl
    · rfl
  | report activity =>
    have hf : (forward (n.appStep B (.report activity)) activity).toApp =
        (n.appStep B (.report activity)).toApp := by
      unfold forward
      split
      · rfl
      · split
        · rfl
        · rfl
    simp only [step, hf]
    exact happ _
  | finalizerRecv =>
    refine .inl ?_
    simp only [step]
    split
    · unfold finalizeStart
      split
      · rfl
      · split
        · rfl
        · rfl
    · rfl
  | finalizerAnswer result =>
    refine .inl ?_
    simp only [step]
    split
    · unfold finalizeFinish
      split
      · split
        · rfl
        · rfl
      · rfl
    · rfl
  | enqueue msg => exact happ _
  | recv nowMillis => exact happ _
  | built env => exact happ _
  | validated env => exact happ _
  | blockMessage data => exact happ _
  | blockChannelError => exact happ _
  | broadcast digest plan transport => exact happ _

/-- The engine side has no hand in the tracker, the channel, the finalizer and the log. -/
theorem appStep_frame (n : Node) (e : Event ρ) :
    (n.appStep B e).tracker = n.tracker ∧ (n.appStep B e).sink = n.sink ∧
      (n.appStep B e).finalizer = n.finalizer ∧ (n.appStep B e).log = n.log := by
  unfold appStep
  split
  · exact ⟨rfl, rfl, rfl, rfl⟩
  · exact ⟨rfl, rfl, rfl, rfl⟩

/-- The event neither reports a finalization nor lets the finalizer go on. -/
structure Quiet (n : Node) (e : Event ρ) : Prop where
  report : ∀ activity, e = .report activity → activity.finalized = none
  recv : e = .finalizerRecv → n.finalizer = .idle → n.sink.next = none
  answer : ∀ result, e = .finalizerAnswer result → n.finalizer = .idle

/-- What a step does to the tracker, the channel, the finalizer and the log. -/
inductive Moves (n : Node) : Event ρ → Node → Prop
  | quiet {e : Event ρ} {n' : Node} :
      n.Quiet e → n'.tracker = n.tracker → n'.sink = n.sink → n'.finalizer = n.finalizer →
      n'.log = n.log → Moves n e n'
  | buildFcu {n' : Node} {msg : Propose} {req : BuildPayloadRequest} :
      n.stage = .building msg req → n.anchor = none →
      n'.tracker = n.tracker → n'.sink = n.sink → n'.finalizer = n.finalizer →
      n'.log = n.log ++ [.buildFcu msg (buildForkchoice n.tracker.finalized req)] →
      Moves n .buildFcu n'
  | forwarded {n' : Node} {activity : Activity} {d : Digest} {q : Fifo Digest} :
      activity.finalized = some d → n.sink.trySend d = some q →
      n'.tracker = n.tracker → n'.sink = q → n'.finalizer = n.finalizer →
      n'.log = n.log ++ [.forwarded d] → Moves n (.report activity) n'
  | dropped {n' : Node} {activity : Activity} {d : Digest} :
      activity.finalized = some d → n.sink.trySend d = none →
      n'.tracker = n.tracker → n'.sink = n.sink → n'.finalizer = n.finalizer →
      n'.log = n.log ++ [.dropped d] → Moves n (.report activity) n'
  | poisoned {n' : Node} {d : Digest} {q : Fifo Digest} :
      n.finalizer = .idle → n.sink.next = some (d, q) → n.blockInfo.poisoned = true →
      n'.tracker = n.tracker → n'.sink = q → n'.finalizer = .idle →
      n'.log = n.log → Moves n .finalizerRecv n'
  | notFound {n' : Node} {d : Digest} {q : Fifo Digest} :
      n.finalizer = .idle → n.sink.next = some (d, q) → n.info d = none →
      n'.tracker = n.tracker → n'.sink = q → n'.finalizer = .idle →
      n'.log = n.log ++ [.notFound d] → Moves n .finalizerRecv n'
  | submitted {n' : Node} {d : Digest} {q : Fifo Digest} {info : BlockInfo} :
      n.finalizer = .idle → n.sink.next = some (d, q) → n.info d = some info →
      n'.tracker = n.tracker → n'.sink = q →
      n'.finalizer = .submitting d info.hash info.number →
      n'.log = n.log ++ [.finalizeFcu d (finalizeForkchoice info.hash)] →
      Moves n .finalizerRecv n'
  | finalized {n' : Node} {d : Digest} {hash : B256} {number : UInt64} {fcu : ForkchoiceUpdated} :
      n.finalizer = .submitting d hash number → fcu.payloadStatus.isValid = true →
      n'.tracker = ⟨(hash, number)⟩ → n'.sink = n.sink → n'.finalizer = .idle →
      n'.log = n.log ++ [.finalized d hash number] → Moves n (.finalizerAnswer (.ok fcu)) n'
  | failed {n' : Node} {d : Digest} {hash : B256} {number : UInt64}
      {result : Except String ForkchoiceUpdated} :
      n.finalizer = .submitting d hash number →
      (∀ fcu, result = .ok fcu → fcu.payloadStatus.isValid = false) →
      n'.tracker = n.tracker → n'.sink = n.sink → n'.finalizer = .idle →
      n'.log = n.log ++ [.finalizeFailed d hash] → Moves n (.finalizerAnswer result) n'

theorem moves_step (n : Node) (e : Event ρ) : Moves n e (n.step B e) := by
  have happ : ∀ e : Event ρ, n.Quiet e → Moves n e (n.appStep B e) := by
    intro e he
    obtain ⟨ht, hs, hf, hl⟩ := appStep_frame (B := B) n e
    exact .quiet he ht hs hf hl
  cases e with
  | buildFcu =>
    simp only [step]
    split
    · next msg req hstage hanchor => exact .buildFcu hstage hanchor rfl rfl rfl rfl
    · exact .quiet ⟨nofun, nofun, nofun⟩ rfl rfl rfl rfl
  | report activity =>
    obtain ⟨ht, hs, hf, hl⟩ := appStep_frame (B := B) n (.report activity)
    simp only [step, forward]
    split
    · next ha =>
      refine .quiet ⟨fun activity' h => ?_, nofun, nofun⟩ ht hs hf hl
      cases h
      exact ha
    · next d ha =>
      split
      · next q hq =>
        rw [hs] at hq
        exact .forwarded ha hq ht rfl hf (by rw [hl])
      · next hq =>
        rw [hs] at hq
        exact .dropped ha hq ht hs hf (by rw [hl])
  | finalizerRecv =>
    simp only [step]
    split
    · next d q hidle hnext =>
      unfold finalizeStart
      split
      · next hread =>
        refine .poisoned hidle hnext ?_ rfl rfl hidle rfl
        cases hp : n.blockInfo.poisoned with
        | true => rfl
        | false => rw [Lock.read_eq_some.mpr ⟨hp, rfl⟩] at hread; cases hread
      · next map hread =>
        obtain ⟨_, rfl⟩ := Lock.read_eq_some.mp hread
        split
        · next hinfo => exact .notFound hidle hnext hinfo rfl rfl hidle rfl
        · next info hinfo => exact .submitted hidle hnext hinfo rfl rfl rfl rfl
    · next hblocked =>
      refine .quiet ⟨nofun, fun _ hidle => ?_, nofun⟩ rfl rfl rfl rfl
      cases hnext : n.sink.next with
      | none => rfl
      | some taken => exact absurd hnext (hblocked taken.1 taken.2 hidle)
  | finalizerAnswer result =>
    simp only [step]
    split
    · next d hash number hsub =>
      unfold finalizeFinish
      split
      · next fcu =>
        split
        · next hv => exact .finalized hsub hv rfl rfl rfl rfl
        · next hv =>
          refine .failed hsub (fun fcu' h => ?_) rfl rfl rfl rfl
          cases h
          exact Bool.not_eq_true _ ▸ hv
      · exact .failed hsub (fun _ h => (nomatch h)) rfl rfl rfl rfl
    · next hidle => exact .quiet ⟨nofun, nofun, fun _ _ => hidle⟩ rfl rfl rfl rfl
  | enqueue msg => exact happ _ ⟨nofun, nofun, nofun⟩
  | recv nowMillis => exact happ _ ⟨nofun, nofun, nofun⟩
  | built env => exact happ _ ⟨nofun, nofun, nofun⟩
  | validated env => exact happ _ ⟨nofun, nofun, nofun⟩
  | blockMessage data => exact happ _ ⟨nofun, nofun, nofun⟩
  | blockChannelError => exact happ _ ⟨nofun, nofun, nofun⟩
  | broadcast digest plan transport => exact happ _ ⟨nofun, nofun, nofun⟩

/-! ### Consequences -/

/-- A property of the engine side that its steps keep, the steps of the node keep. -/
theorem toApp_invariant {P : App → Prop} (hP : ∀ s ae, P s → P (s.step ae)) {n : Node}
    (e : Event ρ) (h : P n.toApp) : P (n.step B e).toApp := by
  rcases toApp_step (B := B) n e with hs | ⟨ae, _, hs⟩
  · rw [hs]
    exact h
  · rw [hs]
    exact hP n.toApp ae h

/-- No step poisons a lock. -/
theorem healthy_step {n : Node} (e : Event ρ) (h : n.Healthy) : (n.step B e).Healthy :=
  toApp_invariant (P := fun s => s.Healthy) (fun _ ae hs => App.healthy_step ae hs) e h

theorem healthy_run (validators : ValidatorSet) (metrics : Option ConsensusMetrics)
    (g : GenesisInfo) (senders : Nat) (es : List (Event ρ)) :
    (Run.run (step B) (Node.new validators metrics g senders) es).Healthy :=
  Run.run_invariant (P := fun n : Node => n.Healthy) (fun _ e hn => healthy_step e hn)
    (App.healthy_new validators metrics g) es

theorem requestCurrent_step {n : Node} (e : Event ρ) (h : n.RequestCurrent) :
    (n.step B e).RequestCurrent :=
  toApp_invariant (P := App.RequestCurrent) (fun _ ae hs => App.requestCurrent_step ae hs) e h

/-- No step takes a record away. -/
theorem info_step_isSome {n : Node} {d : Digest} (e : Event ρ) (h : (n.info d).isSome) :
    ((n.step B e).info d).isSome :=
  toApp_invariant (P := fun s => (s.info d).isSome) (fun _ ae hs => App.info_step_isSome ae hs) e h

/-- Responses are never taken back. -/
theorem answers_step_mono {n : Node} {a : Answer} (e : Event ρ) (h : a ∈ n.answers) :
    a ∈ (n.step B e).answers :=
  toApp_invariant (P := fun s => a ∈ s.answers) (fun _ ae hs => App.answers_step_mono ae hs) e h

/-- No step takes a block of this node away. -/
theorem pending_step_isSome {n : Node} {d : Digest} (e : Event ρ)
    (h : (n.pendingBlocks.value.lookup d).isSome) :
    ((n.step B e).pendingBlocks.value.lookup d).isSome :=
  toApp_invariant (P := fun s => (s.pendingBlocks.value.lookup d).isSome)
    (fun _ ae hs => App.pending_step_isSome ae hs) e h

/-- No step takes a received block away. -/
theorem received_step_isSome {n : Node} {d : Digest} (e : Event ρ)
    (h : (n.receivedBlocks.value.lookup d).isSome) :
    ((n.step B e).receivedBlocks.value.lookup d).isSome :=
  toApp_invariant (P := fun s => (s.receivedBlocks.value.lookup d).isSome)
    (fun _ ae hs => App.received_step_isSome ae hs) e h

theorem validators_step (n : Node) (e : Event ρ) : (n.step B e).validators = n.validators :=
  toApp_invariant (P := fun s => s.validators = n.validators)
    (fun s ae hs => (App.validators_step s ae).trans hs) e rfl

/-- A response that is new after a step was sent by the engine side. -/
theorem mem_answers_step {n : Node} {e : Event ρ} {a : Answer} (h : a ∈ (n.step B e).answers) :
    a ∈ n.answers ∨
      ∃ ae, Drives B n e ae ∧ (n.step B e).toApp = n.toApp.step ae ∧ App.Responds n.toApp ae a := by
  rcases toApp_step (B := B) n e with hs | ⟨ae, hae, hs⟩
  · rw [hs] at h
    exact .inl h
  · rw [hs] at h
    rcases App.mem_answers_step h with hold | hnew
    · exact .inl hold
    · exact .inr ⟨ae, hae, hs, hnew⟩

/-- The step `e` of the node writes the record `i` under `d`. -/
inductive Records (B : PayloadBuilder ρ) (n : Node) : Event ρ → Digest → BlockInfo → Prop
  | proposed {msg : Propose} {req : BuildPayloadRequest} {finalized : Finalized} {env : ρ}
      {payload : BuiltPayload} :
      n.stage = .building msg req → n.anchor = some finalized →
      B.buildPayload env finalized req = .ok payload →
      Records B n (.built env) ⟨payload.blockHash⟩ (Actor.proposedInfo msg req payload)
  | verified {msg : Verify} {bytes : Bytes} {ph : B256} {env : ρ} {m : BlockMeta} :
      n.stage = .validating msg bytes ph → B.validateBlock env bytes ph = .ok (.valid m) →
      Actor.timestampsAgree m = true →
      Records B n (.validated env) msg.payload (Actor.verifiedInfo msg m)

/-- A build that ends, and the answer it ends with. -/
theorem drives_built {n : Node} {e : Event ρ} {result : Except String BuiltPayload} {msg : Propose}
    {req : BuildPayloadRequest} (h : Drives B n e (.built result))
    (hstage : n.stage = .building msg req) :
    ∃ env finalized, e = .built env ∧ n.anchor = some finalized ∧
      B.buildPayload env finalized req = result := by
  cases h with
  | built hstage' hanchor =>
    cases hstage.symm.trans hstage'
    exact ⟨_, _, rfl, hanchor, rfl⟩

/-- A verification that ends, and the answer it ends with. -/
theorem drives_validated {n : Node} {e : Event ρ} {result : Except String ValidationResult}
    {msg : Verify} {bytes : Bytes} {ph : B256} (h : Drives B n e (.validated result))
    (hstage : n.stage = .validating msg bytes ph) :
    ∃ env, e = .validated env ∧ B.validateBlock env bytes ph = result := by
  cases h with
  | validated hstage' =>
    cases hstage.symm.trans hstage'
    exact ⟨_, rfl, rfl⟩

/-- A record was there before the step, or the step wrote it. -/
theorem info_step_cases {n : Node} {e : Event ρ} {d : Digest} {i : BlockInfo}
    (h : (n.step B e).info d = some i) : n.info d = some i ∨ Records B n e d i := by
  rcases toApp_step (B := B) n e with hs | ⟨ae, hae, hs⟩
  · rw [hs] at h
    exact .inl h
  · rw [hs] at h
    rcases App.info_step_cases h with hold | hrec
    · exact .inl hold
    · refine .inr ?_
      cases hrec with
      | proposed hstage =>
        obtain ⟨env, finalized, rfl, hanchor, hb⟩ := drives_built hae hstage
        exact .proposed hstage hanchor hb
      | verified hstage hm =>
        obtain ⟨env, rfl, hv⟩ := drives_validated hae hstage
        exact .verified hstage hv hm

/-- A digest with a record has one after the step: the same, or one the step
wrote over it. -/
theorem info_step_some {n : Node} {d : Digest} {i : BlockInfo} (e : Event ρ)
    (h : n.info d = some i) :
    ∃ i', (n.step B e).info d = some i' ∧ (i' = i ∨ Records B n e d i') := by
  have hsome := info_step_isSome (B := B) e (Option.isSome_iff_exists.mpr ⟨i, h⟩)
  obtain ⟨i', hi'⟩ := Option.isSome_iff_exists.mp hsome
  refine ⟨i', hi', ?_⟩
  rcases info_step_cases hi' with hold | hrec
  · exact .inl (Option.some.inj (hold.symm.trans h))
  · exact .inr hrec

/-- Under a healthy lock the step does write its record. -/
theorem info_step_of_records {n : Node} {e : Event ρ} {d : Digest} {i : BlockInfo}
    (hl : n.blockInfo.poisoned = false) (h : Records B n e d i) :
    (n.step B e).info d = some i := by
  cases h with
  | proposed hstage hanchor hb =>
    simp only [step, appStep, appEvent, hstage, hanchor, hb]
    exact App.info_step_of_records hl (.proposed hstage)
  | verified hstage hv hm =>
    simp only [step, appStep, appEvent, hstage, hv]
    exact App.info_step_of_records hl (.verified hstage hm)

/-! ### Block bytes -/

/-- Bytes in `pending_blocks` were there before the step, or the node has just
built them. -/
theorem pending_step_cases {n : Node} {e : Event ρ} {d : Digest} {bytes : Bytes}
    (h : (n.step B e).pendingBlocks.value.lookup d = some bytes) :
    n.pendingBlocks.value.lookup d = some bytes ∨
      ∃ env msg req finalized payload, e = .built env ∧ n.stage = .building msg req ∧
        n.anchor = some finalized ∧ B.buildPayload env finalized req = .ok payload ∧
        d = ⟨payload.blockHash⟩ ∧ bytes = payload.blockBytes := by
  rcases toApp_step (B := B) n e with hs | ⟨ae, hae, hs⟩
  · rw [hs] at h
    exact .inl h
  · rw [hs] at h
    rcases App.pending_step_cases h with hold | ⟨msg, req, payload, hstage, rfl, hd, hbytes⟩
    · exact .inl hold
    · obtain ⟨env, finalized, rfl, hanchor, hb⟩ := drives_built hae hstage
      exact .inr ⟨env, msg, req, finalized, payload, rfl, hstage, hanchor, hb, hd, hbytes⟩

/-- Bytes in `received_blocks` were there before the step, or they have just
arrived on the block channel. -/
theorem received_step_cases {n : Node} {e : Event ρ} {d : Digest} {bytes : Bytes}
    (h : (n.step B e).receivedBlocks.value.lookup d = some bytes) :
    n.receivedBlocks.value.lookup d = some bytes ∨
      ∃ data, e = .blockMessage data ∧ parseBlockMessage data = some (d, bytes) := by
  rcases toApp_step (B := B) n e with hs | ⟨ae, hae, hs⟩
  · rw [hs] at h
    exact .inl h
  · rw [hs] at h
    rcases App.received_step_cases h with hold | ⟨data, rfl, hp⟩
    · exact .inl hold
    · cases hae
      exact .inr ⟨data, rfl, hp⟩

/-- Only a block message touches the received blocks. -/
theorem receivedBlocks_step {n : Node} {e : Event ρ} (hne : ∀ data, e ≠ .blockMessage data) :
    (n.step B e).receivedBlocks = n.receivedBlocks := by
  rcases toApp_step (B := B) n e with hs | ⟨ae, hae, hs⟩
  · rw [hs]
  · rw [hs]
    rcases App.stores_step_cases n.toApp ae with hst | ⟨_, _, _, _, _, hst⟩ |
      ⟨msg, _, _, m, _, _, hm, hst⟩ | ⟨data, rfl, _⟩
    · exact hst.receivedBlocks
    · rw [hst]
      rfl
    · rw [hst, Actor.verifyRecord_accepts n.toActor msg hm]
      rfl
    · cases hae
      exact absurd rfl (hne data)

theorem validating_step_cases {n : Node} {e : Event ρ} {msg : Verify} {bytes : Bytes} {ph : B256}
    (h : (n.step B e).stage = .validating msg bytes ph) :
    n.stage = .validating msg bytes ph ∨ n.pendingBlocks.value.lookup msg.payload = some bytes ∨
      n.receivedBlocks.value.lookup msg.payload = some bytes := by
  rcases toApp_step (B := B) n e with hs | ⟨ae, _, hs⟩
  · rw [hs] at h
    exact .inl h
  · rw [hs] at h
    exact App.validating_step_cases h

/-- The build a node waits on was so before the step, or the step has just taken
its `Propose` from the mailbox. -/
theorem building_step_cases {n : Node} {e : Event ρ} {msg : Propose} {req : BuildPayloadRequest}
    (h : (n.step B e).stage = .building msg req) :
    n.stage = .building msg req ∨
      ∃ rest nowMillis, n.stage = .idle ∧ n.receiver = .propose msg :: rest ∧
        e = .recv nowMillis ∧ req = Actor.buildRequest n.blockInfo.value msg nowMillis := by
  rcases toApp_step (B := B) n e with hs | ⟨ae, hae, hs⟩
  · rw [hs] at h
    exact .inl h
  · rw [hs] at h
    rcases App.stage_step_cases n.toApp ae with hst | hst |
      ⟨msg', rest, nowMillis, hidle, hrecv, rfl, _, hst⟩ | ⟨_, _, _, _, _, _, _, _, _, hst⟩
    · exact .inl (hst ▸ h)
    · rw [hst] at h
      cases h
    · rw [hst] at h
      cases h
      cases hae
      exact .inr ⟨rest, nowMillis, hidle, hrecv, rfl, rfl⟩
    · rw [hst] at h
      cases h

/-! ### The log -/

/-- The log only grows, at its end. -/
theorem log_grows_step (n : Node) (e : Event ρ) : n.log <+: (n.step B e).log := by
  cases moves_step (B := B) n e with
  | quiet _ _ _ _ hl => rw [hl]
  | poisoned _ _ _ _ _ _ hl => rw [hl]
  | buildFcu _ _ _ _ _ hl | notFound _ _ _ _ _ _ hl | submitted _ _ _ _ _ _ hl
  | forwarded _ _ _ _ _ hl | dropped _ _ _ _ _ hl | finalized _ _ _ _ _ hl
  | failed _ _ _ _ _ hl =>
    rw [hl]
    exact List.prefix_append _ _

theorem log_grows_run (n : Node) (es : List (Event ρ)) :
    n.log <+: (Run.run (step B) n es).log :=
  Run.run_invariant (P := fun n' : Node => n.log <+: n'.log)
    (fun n' e h => h.trans (log_grows_step n' e)) (List.prefix_refl _) es

/-- The step `e` of the node adds `o` to the log. -/
inductive Emits (n : Node) : Event ρ → Output → Prop
  | buildFcu {msg : Propose} {req : BuildPayloadRequest} :
      n.stage = .building msg req → n.anchor = none →
      Emits n .buildFcu (.buildFcu msg (buildForkchoice n.tracker.finalized req))
  | forwarded {activity : Activity} {d : Digest} :
      activity.finalized = some d → n.sink.items.length < n.sink.cap →
      Emits n (.report activity) (.forwarded d)
  | dropped {activity : Activity} {d : Digest} :
      activity.finalized = some d → n.sink.cap ≤ n.sink.items.length →
      Emits n (.report activity) (.dropped d)
  | notFound {d : Digest} {q : Fifo Digest} :
      n.finalizer = .idle → n.sink.next = some (d, q) → n.info d = none →
      Emits n .finalizerRecv (.notFound d)
  | submitted {d : Digest} {q : Fifo Digest} {info : BlockInfo} :
      n.finalizer = .idle → n.sink.next = some (d, q) → n.info d = some info →
      Emits n .finalizerRecv (.finalizeFcu d (finalizeForkchoice info.hash))
  | finalized {d : Digest} {hash : B256} {number : UInt64} {fcu : ForkchoiceUpdated} :
      n.finalizer = .submitting d hash number → fcu.payloadStatus.isValid = true →
      Emits n (.finalizerAnswer (.ok fcu)) (.finalized d hash number)
  | failed {d : Digest} {hash : B256} {number : UInt64} {result : Except String ForkchoiceUpdated} :
      n.finalizer = .submitting d hash number →
      Emits n (.finalizerAnswer result) (.finalizeFailed d hash)

/-- An output that is new after a step was emitted by it. -/
theorem mem_log_step {n : Node} {e : Event ρ} {o : Output} (h : o ∈ (n.step B e).log) :
    o ∈ n.log ∨ Emits n e o := by
  have hlast : ∀ o', (n.step B e).log = n.log ++ [o'] → Emits n e o' →
      o ∈ n.log ∨ Emits n e o := by
    intro o' hl he
    rw [hl] at h
    rcases List.mem_append.mp h with hold | hnew
    · exact .inl hold
    · rw [List.mem_singleton.mp hnew]
      exact .inr he
  cases moves_step (B := B) n e with
  | quiet _ _ _ _ hl => rw [hl] at h; exact .inl h
  | poisoned _ _ _ _ _ _ hl => rw [hl] at h; exact .inl h
  | buildFcu hstage hanchor _ _ _ hl => exact hlast _ hl (.buildFcu hstage hanchor)
  | forwarded ha hq _ _ _ hl => exact hlast _ hl (.forwarded ha (Fifo.trySend_eq_some hq).1)
  | dropped ha hq _ _ _ hl => exact hlast _ hl (.dropped ha (Fifo.trySend_eq_none.mp hq))
  | notFound hidle hnext hinfo _ _ _ hl => exact hlast _ hl (.notFound hidle hnext hinfo)
  | submitted hidle hnext hinfo _ _ _ hl => exact hlast _ hl (.submitted hidle hnext hinfo)
  | finalized hsub hv _ _ _ hl => exact hlast _ hl (.finalized hsub hv)
  | failed hsub _ _ _ _ hl => exact hlast _ hl (.failed hsub)

/-! ### Confirmed finalizations -/

/-- What a step confirms: the finalization whose forkchoice update the finalizer waits
on, if the event answers it VALID. -/
def confirms (n : Node) : Event ρ → List Finalization
  | .finalizerAnswer (.ok fcu) =>
    match n.finalizer with
    | .submitting d hash number =>
      if fcu.payloadStatus.isValid then [⟨d, hash, number⟩] else []
    | .idle => []
  | _ => []

theorem mem_confirms {n : Node} {e : Event ρ} {f : Finalization} :
    f ∈ n.confirms e ↔ ∃ fcu, e = .finalizerAnswer (.ok fcu) ∧
      fcu.payloadStatus.isValid = true ∧ n.finalizer = .submitting f.digest f.hash f.number := by
  constructor
  · intro h
    unfold confirms at h
    split at h
    · next fcu =>
      split at h
      · next d hash number hsub =>
        split at h
        · next hvalid =>
          cases List.mem_singleton.mp h
          exact ⟨fcu, rfl, hvalid, hsub⟩
        · cases h
      · cases h
    · cases h
  · rintro ⟨fcu, rfl, hvalid, hsub⟩
    simp only [confirms, hsub, if_pos hvalid]
    exact List.mem_singleton_self _

/-- A step sets the tracker to what it confirms, or leaves it. -/
theorem confirms_step (n : Node) (e : Event ρ) :
    (n.confirms e = [] ∧ (n.step B e).tracker = n.tracker) ∨
      ∃ f, n.confirms e = [f] ∧ (n.step B e).tracker.finalized = f.anchor := by
  have hnone : (∀ result, e ≠ .finalizerAnswer result) → n.confirms e = [] := by
    intro hne
    cases e with
    | finalizerAnswer result => exact absurd rfl (hne result)
    | _ => rfl
  cases moves_step (B := B) n e with
  | quiet hq ht _ _ _ =>
    refine .inl ⟨List.eq_nil_iff_forall_not_mem.mpr fun f hf => ?_, ht⟩
    -- a finalizer with an answer to wait for is not idle
    obtain ⟨fcu, rfl, -, hsub⟩ := mem_confirms.mp hf
    cases (hq.answer _ rfl).symm.trans hsub
  | buildFcu _ _ ht _ _ _ | forwarded _ _ ht _ _ _ | dropped _ _ ht _ _ _
  | poisoned _ _ _ ht _ _ _ | notFound _ _ _ ht _ _ _ | submitted _ _ _ ht _ _ _ =>
    exact .inl ⟨hnone (by rintro _ ⟨⟩), ht⟩
  | @finalized _ d hash number fcu hsub hvalid ht _ _ _ =>
    refine .inr ⟨⟨d, hash, number⟩, ?_, by rw [ht]; rfl⟩
    simp only [confirms, hsub, if_pos hvalid]
  | @failed _ d hash number result hsub hinvalid ht _ _ _ =>
    refine .inl ⟨?_, ht⟩
    cases result with
    | ok fcu => simp only [confirms, hsub, hinvalid fcu rfl, Bool.false_eq_true, if_false]
    | error reason => rfl

end Steps

/-! ## What a run is given -/

section Inputs

variable {es es₁ : List (Event ρ)} {e : Event ρ}

/-- The messages the engine puts into the mailbox. -/
def enqueued (es : List (Event ρ)) : List Message :=
  es.filterMap fun
    | .enqueue msg => some msg
    | _ => none

/-- The digests reported as finalized. -/
def reported (es : List (Event ρ)) : List Digest :=
  es.filterMap fun
    | .report activity => activity.finalized
    | _ => none

theorem enqueued_concat (es : List (Event ρ)) (msg : Message) :
    enqueued (es ++ [.enqueue msg]) = enqueued es ++ [msg] := by
  simp [enqueued, List.filterMap_append]

theorem enqueued_concat_of_ne (he : ∀ msg, e ≠ .enqueue msg) :
    enqueued (es ++ [e]) = enqueued es := by
  cases e with
  | enqueue msg => exact absurd rfl (he msg)
  | _ => simp [enqueued, List.filterMap_append]

theorem enqueued_grows (hpre : es₁ <+: es) : enqueued es₁ <+: enqueued es := by
  obtain ⟨es₂, rfl⟩ := hpre
  exact ⟨enqueued es₂, (List.filterMap_append).symm⟩

/-- What was enqueued is finished, oldest first, or outstanding. -/
theorem outstanding_step {B : PayloadBuilder ρ} {n : Node} {finished : List Message} (e : Event ρ)
    (hq : enqueued es = finished ++ n.outstanding) :
    ∃ more, enqueued (es ++ [e]) = finished ++ more ++ (n.step B e).outstanding := by
  by_cases he : ∃ msg, e = .enqueue msg
  · obtain ⟨msg, rfl⟩ := he
    have hout : (n.step B (.enqueue msg)).outstanding = n.outstanding ++ [msg] :=
      (List.append_assoc _ _ _).symm
    exact ⟨[], by rw [enqueued_concat, hq, hout, List.append_nil, List.append_assoc]⟩
  · have hne : ∀ msg, e ≠ .enqueue msg := fun msg hm => he ⟨msg, hm⟩
    rw [enqueued_concat_of_ne hne, hq]
    rcases toApp_step (B := B) n e with hs | ⟨ae, hae, hs⟩
    · exact ⟨[], by rw [hs, List.append_nil]⟩
    · rw [hs]
      rcases App.outstanding_step n.toApp ae with ⟨msg, rfl, _⟩ | ⟨_, more, hout, _⟩
      · cases hae
        exact absurd rfl (hne msg)
      · exact ⟨more, by rw [hout, List.append_assoc]⟩

theorem reported_subset (hpre : es₁ <+: es) {d : Digest} (hd : d ∈ reported es₁) :
    d ∈ reported es := by
  obtain ⟨es₂, rfl⟩ := hpre
  rw [reported, List.filterMap_append]
  exact List.mem_append_left _ hd

theorem reported_concat_of_finalized {activity : Activity} {d : Digest}
    (h : activity.finalized = some d) :
    reported (es ++ [.report activity]) = reported es ++ [d] := by
  simp [reported, List.filterMap_append, h]

theorem mem_reported {activity : Activity} {d : Digest} (h : activity.finalized = some d) :
    d ∈ reported (es ++ [.report activity]) := by
  rw [reported_concat_of_finalized h]
  simp

theorem reported_concat_of_not_finalized
    (h : ∀ activity, e = .report activity → activity.finalized = none) :
    reported (es ++ [e]) = reported es := by
  cases e with
  | report activity => simp [reported, List.filterMap_append, h activity rfl]
  | _ => simp [reported, List.filterMap_append]

end Inputs

end Node

/-! ## The production node -/

/-- The genesis block of the chain specification. -/
structure Genesis (A : Alloy) where
  header : A.Header
  number_zero : A.number header = 0
  proposer : PublicKey

/-- What the actor is told about genesis (`into_launched`). -/
def Genesis.info {A : Alloy} (g : Genesis A) : GenesisInfo where
  hash := A.hashSlow g.header
  timestamp := A.timestamp g.header
  timestampMillis := saturatingMul (A.timestamp g.header) 1000
  proposer := g.proposer

/-- What a node is started with. -/
structure Config (A : Alloy) where
  genesis : Genesis A
  validators : ValidatorSet
  metrics : Option ConsensusMetrics
  senders : Nat

namespace Node

def start {A : Alloy} (c : Config A) : Node :=
  Node.new c.validators c.metrics c.genesis.info c.senders

/-- A step of a node with the production payload builder. -/
abbrev prodStep (A : Alloy) : Node → Event (Reth A) → Node := step (createEnginePayloadBuilder A)

/-- Production nodes on a network that carries their block messages. -/
def machine (A : Alloy) : Run.Machine Node (Event (Reth A)) Bytes where
  step := prodStep A
  receives := fun
    | .blockMessage data => some data
    | _ => none
  sends := fun n e =>
    match e with
    | .broadcast digest plan transport => n.toApp.sends (.broadcast digest plan transport)
    | _ => []

/-- What a node sends is a block of its own under its digest. -/
theorem mem_machine_sends {A : Alloy} {n : Node} {e : Event (Reth A)} {data : Bytes}
    (h : data ∈ (machine A).sends n e) :
    ∃ d bytes, n.pendingBlocks.value.lookup d = some bytes ∧ data = wireMessage d bytes := by
  cases e with
  | broadcast digest plan transport =>
    exact App.mem_sends (e := .broadcast digest plan transport) h
  | _ => cases h

end Node

/-- The step `e` records `i` under `d` for a message with the consensus parent `parent`. -/
inductive RecordsOn (A : Alloy) (n : Node) :
    Node.Event (Reth A) → Digest → BlockInfo → Digest → Prop
  | proposed {msg : Propose} {req : BuildPayloadRequest} {finalized : Finalized} {reth : Reth A}
      {payload : BuiltPayload} :
      n.stage = .building msg req → n.anchor = some finalized →
      buildClosure A reth finalized req = .ok payload →
      RecordsOn A n (.built reth) ⟨payload.blockHash⟩ (Actor.proposedInfo msg req payload)
        msg.parent.2
  | verified {msg : Verify} {bytes : Bytes} {ph : B256} {reth : Reth A} {m : BlockMeta} :
      n.stage = .validating msg bytes ph → validateClosure A reth ⟨bytes, ph⟩ = .ok (.valid m) →
      Actor.timestampsAgree m = true →
      RecordsOn A n (.validated reth) msg.payload (Actor.verifiedInfo msg m) msg.parent.2

section Production

variable {A : Alloy} {n : Node} {e : Node.Event (Reth A)}

theorem recordsOn_of_records {d : Digest} {i : BlockInfo}
    (h : Node.Records (createEnginePayloadBuilder A) n e d i) :
    ∃ parent, RecordsOn A n e d i parent := by
  cases h with
  | proposed hstage hanchor hb => exact ⟨_, .proposed hstage hanchor hb⟩
  | verified hstage hv hm => exact ⟨_, .verified hstage hv hm⟩

/-- What holds of the genesis record and of every record that a step writes, in a
state that waits on a current request, holds of every record of a run. -/
theorem info_run {C : Node → Node.Event (Reth A) → Prop} {P : BlockInfo → Prop} {c : Config A}
    {es : List (Node.Event (Reth A))} (hgenesis : P c.genesis.info.record)
    (hrec : ∀ n e d i parent, n.RequestCurrent → C n e → RecordsOn A n e d i parent → P i)
    (hC : Run.Along (Node.prodStep A) C (Node.start c) es) :
    ∀ d i, (Run.run (Node.prodStep A) (Node.start c) es).info d = some i → P i := by
  have hinv : (∀ d i, (Run.run (Node.prodStep A) (Node.start c) es).info d = some i → P i) ∧
      (Run.run (Node.prodStep A) (Node.start c) es).RequestCurrent := by
    refine hC.invariant (P := fun n => (∀ d i, n.info d = some i → P i) ∧ n.RequestCurrent) ?_ ?_
    · rintro n e ⟨hrecords, hreq⟩ he
      refine ⟨fun d i hi => ?_, Node.requestCurrent_step e hreq⟩
      rcases Node.info_step_cases hi with hold | hnew
      · exact hrecords d i hold
      · obtain ⟨parent, hon⟩ := recordsOn_of_records hnew
        exact hrec n e d i parent hreq he hon
    · refine ⟨fun d i hi => ?_, App.requestCurrent_new _ _ _⟩
      rw [(App.info_new hi).2]
      exact hgenesis
  exact hinv.1

end Production

/-! ## A node on the small chain -/

def sampleConfig : Config sampleAlloy where
  genesis := ⟨.genesis, rfl, sampleKey⟩
  validators := sampleValidators
  metrics := none
  senders := 1

/-- A proposal request at `view`, on the block of `parent` (`EMPTY` for genesis). -/
def samplePropose (parent : Digest) (view : UInt64) : Propose :=
  ⟨(view - 1, parent), ⟨0, view⟩, sampleKey⟩

/-- A verification request for `payload` at `view`. -/
def sampleVerify (parent payload : Digest) (view : UInt64) : Verify :=
  ⟨(view - 1, parent), payload, sampleKey, ⟨0, view⟩⟩

/-- Block `one` is verified on genesis, then `two` on `one`. -/
def sampleChainRun : List (Node.Event (Reth sampleAlloy)) :=
  [.blockMessage (wireMessage SampleHeader.one.digest [2]),
    .blockMessage (wireMessage SampleHeader.two.digest [3]),
    .enqueue (.verify (sampleVerify .EMPTY SampleHeader.one.digest 1)), .recv 0,
    .validated (sampleReth .one),
    .enqueue (.verify (sampleVerify SampleHeader.one.digest SampleHeader.two.digest 2)), .recv 0,
    .validated (sampleReth .two)]

end Allegro
