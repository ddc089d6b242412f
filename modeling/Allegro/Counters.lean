import Allegro.Lib.Accounting
import Allegro.Metrics

/-!
# What the metrics count

`crates/consensus/src/metrics.rs` has a counter for each thing that a node does. Their
increments are spread over the actor, the relay, the block receiver and the
reporter. Over a whole run each counter is the number of the things it is named
after, as others see them: answers, messages on the wire, messages that arrived,
reports. The counters wrap around, so these numbers are taken modulo 2^64.

`blocks_proposed` is the exception (`Allegro.Metrics`): it counts the `Propose`s that
were taken.

1. `counted_step`: what a step of any task adds to each counter.
2. `counters_account_for_run`: what the counters hold after a run.
-/

namespace Allegro

open Run

/-- What goes wrong at a step and is counted as an error. -/
inductive Failure
  | build (reason : String)
  | validation (reason : String)
  | channel
  | broadcast (digest : Digest)
deriving DecidableEq

namespace App

/-- What goes wrong at a step. A broadcast fails if the block is there and is not sent. -/
def failures (s : App) : Event → List Failure
  | .built (.error reason) =>
    match s.stage with
    | .building _ _ => [.build reason]
    | _ => []
  | .validated (.error reason) =>
    match s.stage with
    | .validating _ _ _ => [.validation reason]
    | _ => []
  | .blockChannelError => [.channel]
  | .broadcast digest plan transport =>
    if (s.pendingBlocks.value.lookup digest).isSome ∧ s.sends (.broadcast digest plan transport) = []
    then [.broadcast digest] else []
  | _ => []

/-- The blocks that a step receives. -/
def Event.blocks : Event → List (Digest × Bytes)
  | .blockMessage data => (parseBlockMessage data).toList
  | _ => []

/-- The digests that a step reports as finalized. -/
def Event.finalized : Event → List Digest
  | .report activity => activity.finalized.toList
  | _ => []

end App

namespace CountersLemmas

variable {s : App} {m : ConsensusMetrics} {e : App.Event}

/-- `m'` is `m` after a step that sent, received and finalized so many blocks and failed
so many times. -/
structure Counted (m m' : ConsensusMetrics) (sent received finalized failed : Nat) : Prop where
  broadcast : m'.blocksBroadcast = bump sent m.blocksBroadcast
  received : m'.blocksReceived = bump received m.blocksReceived
  finalized : m'.blocksFinalized = bump finalized m.blocksFinalized
  errors : m'.errorsTotal = bump failed m.errorsTotal

theorem counted_receive {nowMillis : UInt64} {msg : Message} (hm : s.metrics = some m) :
    ∃ m', (s.receive nowMillis msg).metrics = some m' ∧ Counted m m' 0 0 0 0 := by
  cases msg with
  | propose msg =>
    have hcount : (s.proposeRequest msg nowMillis).1.metrics = some m.incBlocksProposed :=
      congrArg (Option.map _) hm
    refine ⟨m.incBlocksProposed, ?_, rfl, rfl, rfl, rfl⟩
    simp only [App.receive]
    split
    · next a h =>
      rw [h] at hcount
      exact hcount
    · next a req h =>
      rw [h] at hcount
      exact hcount
  | verify msg =>
    have hcount : (s.verifyLookup msg).1.metrics = some m ∨
        (s.verifyLookup msg).1.metrics = some m.incFailedValidations := by
      have hfailed : (s.toActor.count .incFailedValidations).metrics =
          some m.incFailedValidations := congrArg (Option.map _) hm
      unfold Actor.verifyLookup
      split
      · exact .inr hfailed
      · split
        · exact .inl hm
        · split
          · exact .inr hfailed
          · exact .inl hm
    have hmetrics : (s.receive nowMillis (.verify msg)).metrics =
        (s.verifyLookup msg).1.metrics := by
      simp only [App.receive]
      split
      · next a valid h => rw [h]; rfl
      · next a bytes ph h => rw [h]
    rw [hmetrics]
    rcases hcount with hcount | hcount
    · exact ⟨m, hcount, rfl, rfl, rfl, rfl⟩
    · exact ⟨m.incFailedValidations, hcount, rfl, rfl, rfl, rfl⟩
  | broadcast msg => exact ⟨m, hm, rfl, rfl, rfl, rfl⟩

theorem counted_built {result : Except String BuiltPayload} (hm : s.metrics = some m) :
    ∃ m', (s.step (.built result)).metrics = some m' ∧
      Counted m m' 0 0 0 (s.failures (.built result)).length := by
  simp only [App.step]
  cases hstage : s.stage with
  | building msg req =>
    cases result with
    | error reason =>
      refine ⟨m.incErrors, congrArg (Option.map _) hm, rfl, rfl, rfl, ?_⟩
      simp only [App.failures, hstage]
      rfl
    | ok payload => exact ⟨m, hm, rfl, rfl, rfl, rfl⟩
  | idle | validating msg bytes ph =>
    refine ⟨m, hm, rfl, rfl, rfl, ?_⟩
    cases result with
    | error reason => simp only [App.failures, hstage, List.length_nil, bump_zero]
    | ok payload => rfl

theorem counted_validated {result : Except String ValidationResult} (hm : s.metrics = some m) :
    ∃ m', (s.step (.validated result)).metrics = some m' ∧
      Counted m m' 0 0 0 (s.failures (.validated result)).length := by
  simp only [App.step]
  cases hstage : s.stage with
  | validating msg bytes ph =>
    cases result with
    | ok r =>
      cases r with
      | valid b =>
        by_cases hagree : Actor.timestampsAgree b = true
        · simp only [App.finishVerify, Actor.verifyRecord_accepts s.toActor msg hagree]
          exact ⟨m.incBlocksVerified, congrArg (Option.map _) hm, rfl, rfl, rfl, rfl⟩
        · simp only [App.finishVerify, Actor.verifyRecord_disagrees s.toActor msg hagree]
          exact ⟨m.incFailedValidations, congrArg (Option.map _) hm, rfl, rfl, rfl, rfl⟩
      | invalid reason =>
        exact ⟨m.incFailedValidations, congrArg (Option.map _) hm, rfl, rfl, rfl, rfl⟩
    | error reason =>
      refine ⟨m.incErrors.incFailedValidations, ?_, rfl, rfl, rfl, ?_⟩
      · show (s.metrics.map _).map _ = _
        rw [hm]
        rfl
      · simp only [App.failures, hstage]
        rfl
  | idle | building msg req =>
    refine ⟨m, hm, rfl, rfl, rfl, ?_⟩
    cases result with
    | error reason => simp only [App.failures, hstage, List.length_nil, bump_zero]
    | ok payload => rfl

theorem counted_blockMessage {data : Bytes} (hl : s.Healthy) (hm : s.metrics = some m) :
    ∃ m', (s.step (.blockMessage data)).metrics = some m' ∧
      Counted m m' 0 (App.Event.blocks (.blockMessage data)).length 0 0 := by
  show ∃ m', (receiveBlock s.toActor data).metrics = some m' ∧
    Counted m m' 0 (parseBlockMessage data).toList.length 0 0
  unfold receiveBlock
  cases parseBlockMessage data with
  | none => exact ⟨m, hm, rfl, rfl, rfl, rfl⟩
  | some block =>
    simp only [hl.receivedBlocks, Bool.false_eq_true, if_false]
    exact ⟨m.incBlocksReceived, congrArg (Option.map _) hm, rfl, rfl, rfl, rfl⟩

theorem counted_broadcast {digest : Digest} {plan : Plan} {transport : Transport} (hl : s.Healthy)
    (hm : s.metrics = some m) :
    ∃ m', (s.step (.broadcast digest plan transport)).metrics = some m' ∧
      Counted m m' (s.sends (.broadcast digest plan transport)).length 0 0
        (s.failures (.broadcast digest plan transport)).length := by
  have hread : s.pendingBlocks.read = some s.pendingBlocks.value :=
    Lock.read_eq_some.mpr ⟨hl.pendingBlocks, rfl⟩
  have herror : (s.toActor.count .incErrors).metrics = some m.incErrors :=
    congrArg (Option.map _) hm
  have hsent : (s.toActor.count .incBlocksBroadcast).metrics = some m.incBlocksBroadcast :=
    congrArg (Option.map _) hm
  simp only [App.step, App.failures, App.sends, BlockRelay.broadcast, hread, Option.map_some]
  cases s.pendingBlocks.value.lookup digest with
  | none => exact ⟨m, hm, rfl, rfl, rfl, rfl⟩
  | some bytes =>
    cases hcheck : transport.check plan.recipients with
    | false => exact ⟨m.incErrors, herror, rfl, rfl, rfl, rfl⟩
    | true =>
      cases haccepted : transport.accepted with
      | true => exact ⟨m.incBlocksBroadcast, hsent, rfl, rfl, rfl, rfl⟩
      | false => exact ⟨m.incErrors, herror, rfl, rfl, rfl, rfl⟩

/-- What a step of any task adds to each counter. -/
theorem counted_step (e : App.Event) (hl : s.Healthy) (hm : s.metrics = some m) :
    ∃ m', (s.step e).metrics = some m' ∧
      Counted m m' (s.sends e).length e.blocks.length e.finalized.length (s.failures e).length := by
  cases e with
  | enqueue msg => exact ⟨m, hm, rfl, rfl, rfl, rfl⟩
  | recv nowMillis =>
    simp only [App.step]
    split
    · next msg rest _ _ => exact counted_receive (s := { s with receiver := rest }) hm
    · exact ⟨m, hm, rfl, rfl, rfl, rfl⟩
  | built result => exact counted_built hm
  | validated result => exact counted_validated hm
  | blockMessage data => exact counted_blockMessage hl hm
  | blockChannelError => exact ⟨m.incErrors, congrArg (Option.map _) hm, rfl, rfl, rfl, rfl⟩
  | broadcast digest plan transport => exact counted_broadcast hl hm
  | report activity =>
    simp only [App.step, App.Event.finalized]
    cases activity.finalized with
    | none => exact ⟨m, hm, rfl, rfl, rfl, rfl⟩
    | some digest => exact ⟨m.incBlocksFinalized, congrArg (Option.map _) hm, rfl, rfl, rfl, rfl⟩

/-! ## Runs -/

/-- A counter of the metrics. A node without metrics counts nothing. -/
def counter (field : ConsensusMetrics → UInt64) (s : App) : UInt64 :=
  (s.metrics.map field).getD 0

/-- A node with metrics and healthy stores. -/
def Metered (s : App) : Prop := s.Healthy ∧ s.metrics.isSome = true

theorem metered_step (s : App) (e : App.Event) (h : Metered s) : Metered (s.step e) := by
  obtain ⟨hl, hm⟩ := h
  obtain ⟨m, hm⟩ := Option.isSome_iff_exists.mp hm
  obtain ⟨m', hm', -⟩ := counted_step e hl hm
  exact ⟨App.healthy_step e hl, Option.isSome_iff_exists.mpr ⟨m', hm'⟩⟩

/-- A counter that moves with an output holds its length after a run. -/
theorem counter_run (field : ConsensusMetrics → UInt64) {ο : Type} (out : App → App.Event → List ο)
    (hfield : ∀ {s e m m'}, Counted m m' (s.sends e).length e.blocks.length e.finalized.length
      (s.failures e).length → field m' = bump (out s e).length (field m))
    {s : App} (hs : Metered s) (es : List App.Event) :
    counter field (run App.step s es) =
      bump (trace App.step out s es).length (counter field s) := by
  refine trace_counted (· + 1) (counter field) metered_step ?_ hs es
  rintro s e ⟨hl, hm⟩
  obtain ⟨m, hm⟩ := Option.isSome_iff_exists.mp hm
  obtain ⟨m', hm', hcounted⟩ := counted_step e hl hm
  rw [counter, counter, hm', hm]
  exact hfield hcounted

end CountersLemmas

open CountersLemmas MetricsLemmas

/-- After every run of an actor with metrics, each counter is the number, modulo 2^64, of
the things it counts: the `true` and the `false` answers, the messages that the relay
has put on the wire, the blocks that have arrived and the finalizations that were
reported, whether or not they were forwarded. Errors are failed builds and validations,
failures of the block channel, and blocks that could not be sent. The blocks proposed
are the digests answered, and the `Propose`s whose build failed or still goes on. -/
theorem counters_account_for_run (validators : ValidatorSet) (g : GenesisInfo)
    (es : List App.Event) :
    let start := App.new validators (some {}) g
    let s := run App.step start es
    ∃ m, s.metrics = some m ∧
      m.blocksProposed = .ofNat (s.answers.countP Answer.isDigest +
        s.answers.countP Answer.isUnanswered + inProgress s.stage) ∧
      m.blocksVerified = .ofNat (s.answers.countP Answer.isTrue) ∧
      m.failedValidations = .ofNat (s.answers.countP Answer.isFalse) ∧
      m.blocksBroadcast = .ofNat (trace App.step App.sends start es).length ∧
      m.blocksReceived = .ofNat (es.flatMap App.Event.blocks).length ∧
      m.blocksFinalized = .ofNat (es.flatMap App.Event.finalized).length ∧
      m.errorsTotal = .ofNat (trace App.step App.failures start es).length := by
  intro start s
  obtain ⟨⟨m, hm⟩, -⟩ : (∃ m, Counts s m) ∧ s.Healthy := by
    refine run_invariant (P := fun s : App => (∃ m, Counts s m) ∧ s.Healthy) ?_ ?_ es
    · rintro s e ⟨⟨m, hm⟩, hl⟩
      exact ⟨counts_step hl hm, App.healthy_step e hl⟩
    · exact ⟨⟨{}, rfl, rfl, rfl, rfl, rfl⟩, App.healthy_new validators (some {}) g⟩
  have hstart : Metered start := ⟨App.healthy_new validators (some {}) g, rfl⟩
  -- a counter that starts at zero
  have hcounter : ∀ (field : ConsensusMetrics → UInt64) n, field {} = 0 →
      counter field s = bump n (counter field start) → field m = .ofNat n := by
    intro field n hzero h
    have hs : counter field s = field m := by
      rw [counter, hm.metrics]
      rfl
    have h0 : counter field start = field {} := rfl
    rw [hs, h0, hzero, bump_eq, UInt64.zero_add] at h
    exact h
  have hsent := counter_run (·.blocksBroadcast) App.sends (fun h => h.broadcast) hstart es
  have hreceived := counter_run (·.blocksReceived) (fun _ e => e.blocks) (fun h => h.received)
    hstart es
  have hfinalized := counter_run (·.blocksFinalized) (fun _ e => e.finalized)
    (fun h => h.finalized) hstart es
  have herrors := counter_run (·.errorsTotal) App.failures (fun h => h.errors) hstart es
  rw [trace_events] at hreceived hfinalized
  exact ⟨m, hm.metrics, hm.proposed, hm.verified, hm.failed, hcounter _ _ rfl hsent,
    hcounter _ _ rfl hreceived, hcounter _ _ rfl hfinalized, hcounter _ _ rfl herrors⟩

end Allegro
