import Allegro.Application
import Allegro.Lib.Network

/-!
# The engine side of a node

`crates/consensus/src/engine.rs`: the block relay, the block receiver and the
actor's event loop, as one transition system over the shared stores.

`App` is the actor together with the point its handler has reached. The events
of `App.Event` are everything the tasks of one node do to the stores:

* the engine puts a message into the mailbox (`enqueue`);
* the actor takes the next message and runs to its first `await` (`recv`);
* the payload builder answers, and the handler finishes (`built`, `validated`);
* a message arrives on the block channel (`blockMessage`), or the channel fails
  (`blockChannelError`);
* the engine asks the relay to broadcast a block (`broadcast`) or reports an
  activity (`report`, here only the metrics of `MetricsReporter::report`).

The builder's answers are part of the events, so a run of `App` is a run with
an arbitrary `PayloadBuilder`. `App.answers` keeps every response the engine
got. An event that is not enabled leaves the state as it is.
-/

namespace Allegro

/-! ## Block relay -/

/-- The wire format: 32-byte digest, then the block bytes. -/
def wireMessage (digest : Digest) (blockBytes : Bytes) : Bytes := digest.get.bytes ++ blockBytes

/-- What the transport answers to one submission: whether the rate limiter
lets some recipient through, and whether the message is accepted. -/
structure Transport where
  check : Recipients → Bool
  accepted : Bool

/-- A message handed to the transport. -/
structure Submission where
  recipients : Recipients
  message : Bytes
deriving DecidableEq

def Plan.recipients : Plan → Recipients
  | .propose _ => .all
  | .forward _ recipients => recipients

/-- `BlockRelay::broadcast`: the submission, if there is one. `none` at the
outside is the panic on a poisoned `pending_blocks`. -/
def BlockRelay.broadcast (a : Actor) (digest : Digest) (plan : Plan) (transport : Transport) :
    Option (Actor × Option Submission) :=
  a.pendingBlocks.read.map fun pending =>
    match pending.lookup digest with
    | none => (a, none)
    | some blockBytes =>
      if transport.check plan.recipients then
        (a.count (if transport.accepted then .incBlocksBroadcast else .incErrors),
          some ⟨plan.recipients, wireMessage digest blockBytes⟩)
      else (a.count .incErrors, none)

/-! ## Block receiver -/

/-- The receiver's parse of a block message. Shorter than a digest is malformed. -/
def parseBlockMessage (data : Bytes) : Option (Digest × Bytes) :=
  if h : data.length < 32 then none
  else some (⟨⟨data.take 32, by rw [List.length_take]; omega⟩⟩, data.drop 32)

/-- One message in the loop of `spawn_block_receiver`. -/
def receiveBlock (a : Actor) (data : Bytes) : Actor :=
  match parseBlockMessage data with
  | none => a
  | some (digest, blockVec) =>
    if a.receivedBlocks.poisoned then a.count .incErrors
    else { a with
        receivedBlocks := a.receivedBlocks.insert digest blockVec
      }.count .incBlocksReceived

/-- What the relay sends, the receiver reads back. -/
theorem parse_wireMessage (digest : Digest) (blockBytes : Bytes) :
    parseBlockMessage (wireMessage digest blockBytes) = some (digest, blockBytes) := by
  have hlen : ¬ (wireMessage digest blockBytes).length < 32 := by
    simp [wireMessage, digest.get.size]
  have htake : (wireMessage digest blockBytes).take 32 = digest.get.bytes :=
    List.take_left' digest.get.size
  have hdrop : (wireMessage digest blockBytes).drop 32 = blockBytes :=
    List.drop_left' digest.get.size
  simp only [parseBlockMessage, hlen, dif_neg, not_false_eq_true, htake, hdrop]

/-! ## Consensus activity -/

/-- `simplex::types::Activity`, with what the node's reporter reads of it: the
payload of a finalization certificate. -/
inductive Activity
  | notarize
  | notarization
  | certification
  | nullify
  | nullification
  | finalize
  | finalization (payload : Digest)
  | conflictingNotarize
  | conflictingFinalize
  | nullifyFinalize
deriving DecidableEq

/-- The digest that an activity finalizes. -/
def Activity.finalized : Activity → Option Digest
  | .finalization payload => some payload
  | _ => none

/-! ## The event loop -/

/-- Where the actor's current handler waits. -/
inductive Stage
  | idle
  | building (msg : Propose) (request : BuildPayloadRequest)
  | validating (msg : Verify) (blockBytes : Bytes) (expectedParentHash : B256)
deriving DecidableEq

/-- A response the engine got. A proposal may stay unanswered. -/
inductive Answer
  | proposed (msg : Propose) (digest : Option Digest)
  | verified (msg : Verify) (valid : Bool)
deriving DecidableEq

/-- The actor, its stage and the responses so far, oldest first. -/
structure App extends Actor where
  stage : Stage
  answers : List Answer

namespace App

inductive Event
  | enqueue (msg : Message)
  | recv (nowMillis : UInt64)
  | built (result : Except String BuiltPayload)
  | validated (result : Except String ValidationResult)
  | blockMessage (data : Bytes)
  | blockChannelError
  | broadcast (digest : Digest) (plan : Plan) (transport : Transport)
  | report (activity : Activity)

/-- The event loop of an actor that `Actor::new` has returned. -/
def new (validators : ValidatorSet) (metrics : Option ConsensusMetrics) (g : GenesisInfo) :
    App where
  toActor := Actor.fresh validators metrics g
  stage := .idle
  answers := []

/-- The handler answers and the actor goes back to its mailbox. -/
def respond (s : App) (a : Actor) (answer : Answer) : App where
  toActor := a
  stage := .idle
  answers := s.answers ++ [answer]

/-- `Actor::run` takes `msg`: the handler runs up to its first `await`.
`handle_broadcast` only logs. -/
def receive (s : App) (nowMillis : UInt64) : Message → App
  | .propose msg =>
    match s.proposeRequest msg nowMillis with
    | (a, none) => s.respond a (.proposed msg none)
    | (a, some req) => { s with toActor := a, stage := .building msg req }
  | .verify msg =>
    match s.verifyLookup msg with
    | (a, .answer valid) => s.respond a (.verified msg valid)
    | (a, .validate bytes parentHash) =>
      { s with toActor := a, stage := .validating msg bytes parentHash }
  | .broadcast _ => s

/-- The builder answers a build request. -/
def finishPropose (s : App) (msg : Propose) (req : BuildPayloadRequest)
    (result : Except String BuiltPayload) : App :=
  let (a, digest) := s.proposeRecord msg req result
  s.respond a (.proposed msg digest)

/-- The builder answers a validation request. -/
def finishVerify (s : App) (msg : Verify) (result : Except String ValidationResult) : App :=
  let (a, valid) := s.verifyRecord msg result
  s.respond a (.verified msg valid)

def step (s : App) : Event → App
  | .enqueue msg => { s with receiver := s.receiver ++ [msg] }
  | .recv nowMillis =>
    match s.stage, s.receiver with
    | .idle, msg :: rest => receive { s with receiver := rest } nowMillis msg
    | _, _ => s
  | .built result =>
    match s.stage with
    | .building msg req => s.finishPropose msg req result
    | _ => s
  | .validated result =>
    match s.stage with
    | .validating msg _ _ => s.finishVerify msg result
    | _ => s
  | .blockMessage data => { s with toActor := receiveBlock s.toActor data }
  | .blockChannelError => { s with toActor := s.count .incErrors }
  | .broadcast digest plan transport =>
    match BlockRelay.broadcast s.toActor digest plan transport with
    | some (a, _) => { s with toActor := a }
    | none => s
  | .report activity =>
    match activity.finalized with
    | some _ => { s with toActor := s.count .incBlocksFinalized }
    | none => s

/-- The message an event delivers on the block channel. -/
def Event.receives : Event → Option Bytes
  | .blockMessage data => some data
  | _ => none

/-- The messages a step puts on the block channel. -/
def sends (s : App) : Event → List Bytes
  | .broadcast digest plan transport =>
    match BlockRelay.broadcast s.toActor digest plan transport with
    | some (_, some submission) => if transport.accepted then [submission.message] else []
    | _ => []
  | _ => []

end App

end Allegro
