import Allegro.Executor
import Allegro.Lib.Text

/-!
# The production payload builder

`crates/node/src/builder.rs`: the forkchoice tracker and the two closures that
build and validate blocks through reth's engine API.

Reth is not part of the repository. `Reth` is what it answers during one call of
a closure: to the forkchoice updates (one answer for each attempt of the retry
loop), to the resolution of a payload job, and to `new_payload`. A result that
relies on reth's behaviour names what it relies on (`Reth.KeepsTimestamp`,
`Reth.BuildsOnHead`, `Reth.ExtendsParent`).
-/

namespace Allegro

/-! ## The tracker -/

/-- The last finalized block. The finalizer writes it, the build closure reads it. -/
structure ForkchoiceTracker where
  finalized : Finalized
deriving DecidableEq

namespace ForkchoiceTracker

def new (genesisHash : B256) : ForkchoiceTracker := ⟨(genesisHash, 0)⟩

def setFinalized (_ : ForkchoiceTracker) (hash : B256) (number : UInt64) : ForkchoiceTracker :=
  ⟨(hash, number)⟩

end ForkchoiceTracker

/-! ## Reth's answers -/

inductive PayloadStatusEnum
  | valid
  | invalid (validationError : String)
  | syncing
  | accepted
deriving DecidableEq

namespace PayloadStatusEnum

def isValid : PayloadStatusEnum → Bool
  | .valid => true
  | _ => false

/-- The `Debug` form. -/
def debug (printable : Char → Bool) : PayloadStatusEnum → String
  | .valid => "Valid"
  | .invalid validationError =>
    "Invalid \x7b validation_error: " ++ Text.debug printable validationError ++ " \x7d"
  | .syncing => "Syncing"
  | .accepted => "Accepted"

end PayloadStatusEnum

abbrev PayloadId := UInt64

structure ForkchoiceUpdated where
  payloadStatus : PayloadStatusEnum
  payloadId : Option PayloadId
deriving DecidableEq

/-- Reth's answers during one call. The number is the attempt, from 0. -/
structure Reth (A : Alloy) where
  forkChoiceUpdated :
    Nat → ForkchoiceState → Option PayloadAttributes → Except String ForkchoiceUpdated
  resolveKind : PayloadId → Option (Except String A.Block)
  newPayload : A.Block → Except String PayloadStatusEnum

/-! ## The closures -/

section Closures

variable (A : Alloy)

/-- The forkchoice state of a build: head is the parent, safe and finalized are
the tracker's block. -/
def buildForkchoice (finalized : Finalized) (req : BuildPayloadRequest) : ForkchoiceState where
  headBlockHash := req.parentHash
  safeBlockHash := finalized.1
  finalizedBlockHash := finalized.1

variable {A} in
/-- The retry loop: forkchoice updates until one returns a payload id. The last
error is reported when none does. -/
def startPayload (reth : Reth A) (fcs : ForkchoiceState) (attrs : PayloadAttributes) :
    List Nat → String → Except String PayloadId
  | [], lastErr => .error lastErr
  | attempt :: rest, _ =>
    match reth.forkChoiceUpdated attempt fcs (some attrs) with
    | .ok fcu =>
      match fcu.payloadId with
      | some id => .ok id
      | none => startPayload reth fcs attrs rest "engine returned no payload id"
    | .error e => startPayload reth fcs attrs rest ("fork_choice_updated error: " ++ e)

/-- The payload reported for a block that was built. -/
def builtPayload (block : A.Block) : BuiltPayload where
  blockBytes := A.encode block
  blockHash := A.hashSlow block.header
  blockNumber := A.number block.header
  timestampMillis := saturatingMul (A.timestamp block.header) 1000

/-- The build closure: forkchoice update, payload resolution, self-import. -/
def buildClosure (reth : Reth A) (finalized : Finalized) (req : BuildPayloadRequest) :
    Except String BuiltPayload :=
  let attrs := (buildPayloadAttributesFromRequest req).2
  match startPayload reth (buildForkchoice finalized req) attrs (List.range 5) "" with
  | .error e => .error e
  | .ok payloadId =>
    match reth.resolveKind payloadId with
    | none => .error "payload job not found"
    | some (.error e) => .error ("payload build error: " ++ e)
    | some (.ok block) =>
      match reth.newPayload block with
      | .error e => .error ("self-import new_payload: " ++ e)
      | .ok .valid | .ok .accepted => .ok (builtPayload A block)
      | .ok other => .error ("self-import rejected (" ++ other.debug A.printable ++ ")")

/-- The metadata reported for a block that validates. -/
def blockMeta (header : A.Header) : BlockMeta where
  hash := A.hashSlow header
  number := A.number header
  timestamp := A.timestamp header
  timestampMillis := saturatingMul (A.timestamp header) 1000

/-- The validate closure: decode, hash, `new_payload`. It does not look at the
parent hash of the request. -/
def validateClosure (reth : Reth A) (req : ValidateBlockRequest) :
    Except String ValidationResult :=
  match A.decode req.blockBytes with
  | .error e => .error ("rlp decode: " ++ e)
  | .ok (block, _) =>
    match reth.newPayload block with
    | .error e => .error ("engine new_payload error: " ++ e)
    | .ok .valid => .ok (.valid (blockMeta A block.header))
    | .ok (.invalid validationError) => .ok (.invalid validationError)
    | .ok .syncing | .ok .accepted => .error "parent unknown to execution layer (syncing)"

/-- `create_engine_payload_builder`. -/
def createEnginePayloadBuilder : PayloadBuilder (Reth A) where
  buildPayload := buildClosure A
  validateBlock := fun reth blockBytes parentHash => validateClosure A reth ⟨blockBytes, parentHash⟩

end Closures

/-! ## What is assumed of reth -/

namespace Reth

variable {A : Alloy} (reth : Reth A)

/-- A forkchoice update with attributes starts a payload job that resolves to `block`. -/
def Job (fcs : ForkchoiceState) (attrs : PayloadAttributes) (block : A.Block) : Prop :=
  ∃ attempt fcu id, reth.forkChoiceUpdated attempt fcs (some attrs) = .ok fcu ∧
    fcu.payloadId = some id ∧ reth.resolveKind id = some (.ok block)

/-- A built header carries the requested timestamp. -/
def KeepsTimestamp : Prop :=
  ∀ fcs attrs block, reth.Job fcs attrs block → A.timestamp block.header = attrs.timestamp

/-- A payload job is started only on a head that is a block: the built header
names it as its parent, and has the next number. The zero hash names no block. -/
def BuildsOnHead : Prop :=
  ∀ fcs attrs block, reth.Job fcs attrs block →
    fcs.headBlockHash ≠ B256.ZERO ∧ A.parentHash block.header = fcs.headBlockHash ∧
    ∃ parent, A.hashSlow parent = fcs.headBlockHash ∧
      (A.number block.header).toNat = (A.number parent).toNat + 1

/-- `new_payload` reports `Valid` only for a block on top of the block that its
own header names as parent, with the next number. -/
def ExtendsParent : Prop :=
  ∀ block, reth.newPayload block = .ok .valid →
    ∃ parent, A.hashSlow parent = A.parentHash block.header ∧
      (A.number block.header).toNat = (A.number parent).toNat + 1

end Reth

/-! ## What the closures return -/

section Specs

variable {A : Alloy} {reth : Reth A}

theorem startPayload_ok {fcs : ForkchoiceState} {attrs : PayloadAttributes} {attempts : List Nat}
    {lastErr : String} {id : PayloadId}
    (h : startPayload reth fcs attrs attempts lastErr = .ok id) :
    ∃ attempt fcu, reth.forkChoiceUpdated attempt fcs (some attrs) = .ok fcu ∧
      fcu.payloadId = some id := by
  induction attempts generalizing lastErr with
  | nil => cases h
  | cons attempt rest ih =>
    rw [startPayload] at h
    split at h
    · next fcu hf =>
      split at h
      · next id' hid =>
        cases h
        exact ⟨attempt, fcu, hf, hid⟩
      · exact ih h
    · exact ih h

/-- A built payload is the payload of a block that reth resolved for the job. -/
theorem buildClosure_ok {finalized : Finalized} {req : BuildPayloadRequest} {payload : BuiltPayload}
    (h : buildClosure A reth finalized req = .ok payload) :
    ∃ block, reth.Job (buildForkchoice finalized req)
        (buildPayloadAttributes req.parentHash req.timestamp) block ∧
      payload = builtPayload A block := by
  simp only [buildClosure, buildPayloadAttributesFromRequest] at h
  split at h
  · cases h
  · next id hid =>
    split at h
    · cases h
    · cases h
    · next block hres =>
      obtain ⟨attempt, fcu, hf, hfid⟩ := startPayload_ok hid
      refine ⟨block, ⟨attempt, fcu, id, hf, hfid, hres⟩, ?_⟩
      split at h
      · cases h
      · cases h
        rfl
      · cases h
        rfl
      · cases h

/-- The closure reports `Valid` exactly for bytes that start with a block that
reth reports `Valid`. -/
theorem validateClosure_valid {req : ValidateBlockRequest} {m : BlockMeta} :
    validateClosure A reth req = .ok (.valid m) ↔
      ∃ block rest, A.decode req.blockBytes = .ok (block, rest) ∧
        reth.newPayload block = .ok .valid ∧ m = blockMeta A block.header := by
  unfold validateClosure
  constructor
  · intro h
    split at h
    · cases h
    · next block rest hd =>
      split at h
      · cases h
      · next hv =>
        cases h
        exact ⟨block, rest, hd, hv, rfl⟩
      · cases h
      · cases h
      · cases h
  · rintro ⟨block, rest, hd, hv, rfl⟩
    simp only [hd, hv]

end Specs

/-! ## Reth over the small chain -/

/-- Answers of a reth that builds `block` when it is asked for a block on its
parent with its timestamp, and knows every block of the small chain. -/
def sampleReth (block : SampleHeader) : Reth sampleAlloy where
  forkChoiceUpdated := fun _ fcs attrs =>
    .ok ⟨.valid, if block ≠ .genesis ∧ fcs.headBlockHash = block.parent.hash ∧
        attrs.map PayloadAttributes.timestamp = some block.timestamp then some 0 else none⟩
  resolveKind := fun _ => some (.ok ⟨block, ()⟩)
  newPayload := fun b => match b.header with
    | SampleHeader.genesis => .ok (.invalid "no parent")
    | _ => .ok .valid

/-- The production closures over that reth, for block `one`. -/
def buildOne (req : BuildPayloadRequest) : Except String BuiltPayload :=
  buildClosure sampleAlloy (sampleReth .one) (SampleHeader.genesis.hash, 0) req

def validateOne (bytes : Bytes) (parentHash : B256) : Except String ValidationResult :=
  validateClosure sampleAlloy (sampleReth .one) ⟨bytes, parentHash⟩

theorem sampleReth_job {block : SampleHeader} {fcs : ForkchoiceState} {attrs : PayloadAttributes}
    {b : sampleAlloy.Block} (h : (sampleReth block).Job fcs attrs b) :
    b.header = block ∧ block ≠ .genesis ∧ fcs.headBlockHash = block.parent.hash ∧
      attrs.timestamp = block.timestamp := by
  obtain ⟨_, fcu, id, hf, hid, hres⟩ := h
  cases hf
  cases hres
  split at hid
  · next hc => exact ⟨rfl, hc.1, hc.2.1, Option.some.inj hc.2.2⟩
  · cases hid

theorem sampleReth_keepsTimestamp (block : SampleHeader) : (sampleReth block).KeepsTimestamp := by
  intro fcs attrs b hjob
  obtain ⟨hb, _, _, ht⟩ := sampleReth_job hjob
  rw [ht, hb]
  rfl

theorem SampleHeader.number_parent {h : SampleHeader} (hg : h ≠ .genesis) :
    h.number.toNat = h.parent.number.toNat + 1 := by
  cases h with
  | genesis => exact absurd rfl hg
  | one | two | fork => rfl

theorem sampleReth_buildsOnHead (block : SampleHeader) : (sampleReth block).BuildsOnHead := by
  intro fcs attrs b hjob
  obtain ⟨hb, hg, hhead, _⟩ := sampleReth_job hjob
  rw [hhead, hb]
  exact ⟨sampleAlloy_nonZero block.parent, rfl, block.parent, rfl,
    SampleHeader.number_parent hg⟩

theorem sampleReth_extendsParent (block : SampleHeader) : (sampleReth block).ExtendsParent := by
  intro b hvalid
  have hg : b.header ≠ SampleHeader.genesis := by
    intro hg
    simp only [sampleReth, hg] at hvalid
    cases hvalid
  exact ⟨b.header.parent, rfl, SampleHeader.number_parent hg⟩

end Allegro
