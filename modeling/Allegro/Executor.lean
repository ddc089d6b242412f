import Allegro.Primitives

/-!
# The payload builder interface

`crates/consensus/src/executor.rs`: the requests and answers that pass between
the application actor and the execution layer, and the payload attributes
derived from a build request.

A `PayloadBuilder` answers through an environment that changes between calls
(reth's tree, its pool, its peers). `ρ` is what that environment answers during
one call, and the value of the forkchoice tracker that the production build
closure captures is a second explicit argument. A builder is then a pair of
functions, and "any builder" means any such pair, with fresh answers at every
call.
-/

namespace Allegro

/-! ## Requests and answers -/

/-- A block built by the payload builder. -/
structure BuiltPayload where
  blockBytes : Bytes
  blockHash : B256
  blockNumber : UInt64
  timestampMillis : UInt64
deriving DecidableEq

/-- Metadata about a valid block. -/
structure BlockMeta where
  hash : B256
  number : UInt64
  timestamp : UInt64
  timestampMillis : UInt64
deriving DecidableEq

inductive ValidationResult
  | valid (blockMeta : BlockMeta)
  | invalid (reason : String)
deriving DecidableEq

structure BuildPayloadRequest where
  parentHash : B256
  parentNumber : UInt64
  parentView : UInt64
  parentDigest : Digest
  epoch : UInt64
  view : UInt64
  proposer : B256
  timestamp : UInt64
  timestampMillis : UInt64
deriving DecidableEq

structure ValidateBlockRequest where
  blockBytes : Bytes
  parentHash : B256
deriving DecidableEq

/-- The last finalized block, as the tracker holds it: hash and number. -/
abbrev Finalized := B256 × UInt64

/-- `PayloadBuilder`, over the environment's answers `ρ` to one call. -/
structure PayloadBuilder (ρ : Type) where
  buildPayload : ρ → Finalized → BuildPayloadRequest → Except String BuiltPayload
  validateBlock : ρ → Bytes → B256 → Except String ValidationResult

/-! ## Engine API types -/

structure ForkchoiceState where
  headBlockHash : B256
  safeBlockHash : B256
  finalizedBlockHash : B256
deriving DecidableEq

/-- `PayloadAttributes`. Withdrawals are listed by their RLP bytes. -/
structure PayloadAttributes where
  timestamp : UInt64
  prevRandao : B256
  suggestedFeeRecipient : Bytes
  withdrawals : Option (List Bytes)
  parentBeaconBlockRoot : Option B256
  slotNumber : Option UInt64
  targetGasLimit : Option UInt64
deriving DecidableEq

/-- `build_payload_attributes`. -/
def buildPayloadAttributes (_parentHash : B256) (timestamp : UInt64) : PayloadAttributes where
  timestamp := timestamp
  prevRandao := B256.ZERO
  suggestedFeeRecipient := List.replicate 20 0
  withdrawals := some []
  parentBeaconBlockRoot := some B256.ZERO
  slotNumber := none
  targetGasLimit := none

/-- `build_payload_attributes_from_request`. -/
def buildPayloadAttributesFromRequest (req : BuildPayloadRequest) :
    ForkchoiceState × PayloadAttributes :=
  (⟨req.parentHash, req.parentHash, req.parentHash⟩,
    buildPayloadAttributes req.parentHash req.timestamp)

end Allegro
