import Allegro.Executor
import Allegro.Validators

/-!
# The application actor

`crates/consensus/src/application.rs`. The actor takes `Propose` and `Verify`
messages from its mailbox one at a time. Each handler runs up to the call of the
payload builder, waits for the answer, and then records and responds, so each
handler is given in two parts:

* `Actor.proposeRequest` / `Actor.proposeRecord`;
* `Actor.verifyLookup` / `Actor.verifyRecord`.

Other tasks run while a handler waits. `Actor.handlePropose` and
`Actor.handleVerify` put the two parts together.

A response is `none` when the handler drops the responder. Every access to a
shared store goes through its lock, and each handler treats the poison error of
each lock in its own way.
-/

namespace Allegro

/-! ## Records and messages -/

/-- Info about a block tracked by digest. -/
structure BlockInfo where
  number : UInt64
  hash : B256
  view : UInt64
  proposer : PublicKey
  timestamp : UInt64
  timestampMillis : UInt64
deriving DecidableEq

abbrev BlockInfoMap := HashMap Digest BlockInfo

structure Round where
  epoch : UInt64
  view : UInt64
deriving DecidableEq

structure Propose where
  parent : UInt64 × Digest
  round : Round
  leader : PublicKey
deriving DecidableEq

structure Verify where
  parent : UInt64 × Digest
  payload : Digest
  proposer : PublicKey
  round : Round
deriving DecidableEq

/-- `commonware_p2p::Recipients`. -/
inductive Recipients
  | all
  | some (peers : List PublicKey)
  | one (peer : PublicKey)
deriving DecidableEq

/-- `commonware_consensus::simplex::Plan`. -/
inductive Plan
  | propose (round : Round)
  | forward (round : Round) (recipients : Recipients)
deriving DecidableEq

structure Broadcast where
  digest : Digest
  plan : Plan
deriving DecidableEq

/-- Messages from the consensus engine to the application actor. -/
inductive Message
  | propose (msg : Propose)
  | verify (msg : Verify)
  | broadcast (msg : Broadcast)
deriving DecidableEq

/-- The counters of `ConsensusMetrics` that the node increments. They are `AtomicU64`,
and `fetch_add` wraps. -/
structure ConsensusMetrics where
  blocksProposed : UInt64 := 0
  blocksVerified : UInt64 := 0
  blocksFinalized : UInt64 := 0
  blocksBroadcast : UInt64 := 0
  blocksReceived : UInt64 := 0
  errorsTotal : UInt64 := 0
  failedValidations : UInt64 := 0
deriving DecidableEq

namespace ConsensusMetrics

def incBlocksProposed (m : ConsensusMetrics) : ConsensusMetrics :=
  { m with blocksProposed := m.blocksProposed + 1 }
def incBlocksVerified (m : ConsensusMetrics) : ConsensusMetrics :=
  { m with blocksVerified := m.blocksVerified + 1 }
def incBlocksFinalized (m : ConsensusMetrics) : ConsensusMetrics :=
  { m with blocksFinalized := m.blocksFinalized + 1 }
def incBlocksBroadcast (m : ConsensusMetrics) : ConsensusMetrics :=
  { m with blocksBroadcast := m.blocksBroadcast + 1 }
def incBlocksReceived (m : ConsensusMetrics) : ConsensusMetrics :=
  { m with blocksReceived := m.blocksReceived + 1 }
def incErrors (m : ConsensusMetrics) : ConsensusMetrics :=
  { m with errorsTotal := m.errorsTotal + 1 }
def incFailedValidations (m : ConsensusMetrics) : ConsensusMetrics :=
  { m with failedValidations := m.failedValidations + 1 }

end ConsensusMetrics

/-! ## The actor -/

/-- The actor with the stores it shares with the relay, the block receiver and
the finalizer. -/
structure Actor where
  receiver : List Message
  validators : ValidatorSet
  proposalCount : UInt64
  proposals : Lock (List Digest)
  pendingBlocks : Lock (HashMap Digest Bytes)
  receivedBlocks : Lock (HashMap Digest Bytes)
  blockInfo : Lock BlockInfoMap
  metrics : Option ConsensusMetrics

/-- What `Actor::new` is given about genesis. `proposer` is the public key of
`PrivateKey::from_seed(0)`. -/
structure GenesisInfo where
  hash : B256
  timestamp : UInt64
  timestampMillis : UInt64
  proposer : PublicKey
deriving DecidableEq

/-- The record of genesis, kept under the `EMPTY` digest. -/
def GenesisInfo.record (g : GenesisInfo) : BlockInfo where
  number := 0
  hash := g.hash
  view := 0
  proposer := g.proposer
  timestamp := g.timestamp
  timestampMillis := g.timestampMillis

/-- Genesis of the small chain. -/
def sampleGenesisInfo : GenesisInfo := ⟨SampleHeader.genesis.hash, 10, 10000, sampleKey⟩

/-- The actor of `Actor::new`, over the fresh stores of `new_block_stores`. -/
def Actor.fresh (validators : ValidatorSet) (metrics : Option ConsensusMetrics)
    (g : GenesisInfo) : Actor where
  receiver := []
  validators := validators
  proposalCount := 0
  proposals := Lock.new []
  pendingBlocks := Lock.new ∅
  receivedBlocks := Lock.new ∅
  blockInfo := (Lock.new ∅).insert Digest.EMPTY g.record
  metrics := metrics

/-- `futures::channel::mpsc`, with a `usize` of 64 bits. -/
def MAX_BUFFER : UInt64 := 0x3fffffffffffffff

/-- `Actor::new`. `none` is the panic of `mpsc::channel`, which asserts that the size of
the mailbox is below `MAX_BUFFER`. -/
def Actor.new (validators : ValidatorSet) (mailboxSize : UInt64)
    (metrics : Option ConsensusMetrics) (g : GenesisInfo) : Option Actor :=
  if mailboxSize < MAX_BUFFER then some (Actor.fresh validators metrics g) else none

namespace Actor

/-- The record kept for a digest. -/
def info (a : Actor) (d : Digest) : Option BlockInfo := a.blockInfo.value.lookup d

/-- None of the shared stores is poisoned. -/
structure Healthy (a : Actor) : Prop where
  proposals : a.proposals.poisoned = false
  pendingBlocks : a.pendingBlocks.poisoned = false
  receivedBlocks : a.receivedBlocks.poisoned = false
  blockInfo : a.blockInfo.poisoned = false

def count (a : Actor) (inc : ConsensusMetrics → ConsensusMetrics) : Actor :=
  { a with metrics := a.metrics.map inc }

/-! ### Propose -/

/-- The parent's number, hash and millisecond timestamp. A parent that is not
recorded is replaced by zeros. -/
def parentOf (map : BlockInfoMap) (parent : Digest) : UInt64 × B256 × UInt64 :=
  ((map.lookup parent).map fun info => (info.number, info.hash, info.timestampMillis)).getD
    (0, B256.ZERO, 0)

/-- The build request: milliseconds go past the parent's, seconds follow them. -/
def buildRequest (map : BlockInfoMap) (msg : Propose) (nowMillis : UInt64) :
    BuildPayloadRequest :=
  let (parentNumber, parentHash, parentTimestampMillis) := parentOf map msg.parent.2
  let timestampMillis := max nowMillis (saturatingAdd parentTimestampMillis 1)
  { parentHash := parentHash
    parentNumber := parentNumber
    parentView := msg.parent.1
    parentDigest := msg.parent.2
    epoch := msg.round.epoch
    view := msg.round.view
    proposer := ⟨msg.leader.bytes, msg.leader.size⟩
    timestamp := timestampMillis / 1000
    timestampMillis := timestampMillis }

/-- `handle_propose`, up to the call of `build_payload`. `none`: the read lock
is poisoned and the responder is dropped. -/
def proposeRequest (a : Actor) (msg : Propose) (nowMillis : UInt64) :
    Actor × Option BuildPayloadRequest :=
  let a := { a with proposalCount := a.proposalCount + 1 }.count .incBlocksProposed
  (a, a.blockInfo.read.map fun map => buildRequest map msg nowMillis)

/-- The record of a block this node built. The seconds are those of the
request, the milliseconds those the builder reports. -/
def proposedInfo (msg : Propose) (req : BuildPayloadRequest) (payload : BuiltPayload) :
    BlockInfo where
  number := payload.blockNumber
  hash := payload.blockHash
  view := msg.round.view
  proposer := msg.leader
  timestamp := req.timestamp
  timestampMillis := payload.timestampMillis

/-- `handle_propose`, from the builder's answer on. A poisoned lock is logged
and does not stop the response. -/
def proposeRecord (a : Actor) (msg : Propose) (req : BuildPayloadRequest) :
    Except String BuiltPayload → Actor × Option Digest
  | .error _ => (a.count .incErrors, none)
  | .ok payload =>
    let digest : Digest := ⟨payload.blockHash⟩
    ({ a with
        blockInfo := a.blockInfo.insert digest (proposedInfo msg req payload)
        pendingBlocks := a.pendingBlocks.insert digest payload.blockBytes
        proposals := a.proposals.modify fun list => list ++ [digest] },
      some digest)

/-- `handle_propose` with the builder's answer to its request. -/
def handlePropose (a : Actor) (msg : Propose) (nowMillis : UInt64)
    (build : BuildPayloadRequest → Except String BuiltPayload) : Actor × Option Digest :=
  match a.proposeRequest msg nowMillis with
  | (a, none) => (a, none)
  | (a, some req) => a.proposeRecord msg req (build req)

/-! ### Verify -/

/-- How far `handle_verify` gets before it calls the builder. -/
inductive VerifyStart
  | answer (valid : Bool)
  | validate (blockBytes : Bytes) (expectedParentHash : B256)
deriving DecidableEq

/-- The bytes for a payload: own blocks first, then blocks received from peers.
A poisoned `received_blocks` counts as absent. -/
def blockBytes (a : Actor) (pending : HashMap Digest Bytes) (payload : Digest) : Option Bytes :=
  (pending.lookup payload).or (a.receivedBlocks.read.bind fun map => map.lookup payload)

/-- `handle_verify`, up to the call of `validate_block`. The expected parent
hash is the parent's digest itself. -/
def verifyLookup (a : Actor) (msg : Verify) : Actor × VerifyStart :=
  if (a.validators.lookup msg.proposer).isNone then
    (a.count .incFailedValidations, .answer false)
  else
    match a.pendingBlocks.read with
    | none => (a, .answer false)
    | some pending =>
      match a.blockBytes pending msg.payload with
      | none => (a.count .incFailedValidations, .answer false)
      | some bytes => (a, .validate bytes msg.parent.2.get)

/-- The millisecond field agrees with the seconds field. -/
def timestampsAgree (m : BlockMeta) : Bool := m.timestampMillis / 1000 == m.timestamp

/-- The record of a block this node verified. -/
def verifiedInfo (msg : Verify) (m : BlockMeta) : BlockInfo where
  number := m.number
  hash := m.hash
  view := msg.round.view
  proposer := msg.proposer
  timestamp := m.timestamp
  timestampMillis := m.timestampMillis

/-- `handle_verify`, from the builder's answer on. -/
def verifyRecord (a : Actor) (msg : Verify) : Except String ValidationResult → Actor × Bool
  | .ok (.valid m) =>
    if timestampsAgree m then
      ({ a with
          blockInfo := a.blockInfo.insert msg.payload (verifiedInfo msg m)
        }.count .incBlocksVerified, true)
    else (a.count .incFailedValidations, false)
  | .ok (.invalid _) => (a.count .incFailedValidations, false)
  | .error _ => ((a.count .incErrors).count .incFailedValidations, false)

/-- `handle_verify` with the builder's answer to its request. -/
def handleVerify (a : Actor) (msg : Verify)
    (validate : Bytes → B256 → Except String ValidationResult) : Actor × Bool :=
  match a.verifyLookup msg with
  | (a, .answer valid) => (a, valid)
  | (a, .validate bytes parentHash) => a.verifyRecord msg (validate bytes parentHash)

end Actor

end Allegro
