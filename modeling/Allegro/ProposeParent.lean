import Allegro.EngineSteps
import Allegro.Lib.Run

/-!
# Does a proposer know the parent it builds on?

`handle_propose` looks the parent up in `block_info`. A parent that is not there
is replaced by number 0, the zero hash and time 0, and the builder is asked for a
block on that. Whether the proposal is dropped is then up to the builder: one
that builds what it is asked returns a block on the zero hash, and the actor
records it and answers with its digest. The error arm of the same lookup, for a
poisoned lock, does drop the proposal.

Results:
1. `handlePropose_eq_loop`: the handler is what the event loop does in two steps.
2. `proposal_on_known_parent_iff`: the actor answers only on known parents, and
   leaves the stores alone otherwise, exactly when the parent is recorded or the
   builder refuses the request for an unknown parent.
3. `unknown_parent_proposed`: a proposal on a parent that nobody has recorded.
-/

namespace Allegro

open Run Actor

section Definitions

variable (A : Alloy)

/-- The builder builds exactly what it is asked: a block on the parent of the
request, with the next number. -/
def BuildsAsAsked (build : BuildPayloadRequest → Except String BuiltPayload) : Prop :=
  ∀ req payload, build req = .ok payload → ∃ block : A.Block,
    payload.blockBytes = A.encode block ∧ payload.blockHash = A.hashSlow block.header ∧
    payload.blockNumber = A.number block.header ∧ A.parentHash block.header = req.parentHash ∧
    (A.number block.header).toNat = req.parentNumber.toNat + 1

/-- A proposal is answered only with a block on the record of its parent. On a
parent without a record it is left unanswered, and nothing is stored. -/
structure BuildsOnKnown (a : Actor) (msg : Propose) (nowMillis : UInt64)
    (build : BuildPayloadRequest → Except String BuiltPayload) : Prop where
  answered : ∀ d, (a.handlePropose msg nowMillis build).2 = some d →
    ∃ p i, ∃ block : A.Block, a.info msg.parent.2 = some p ∧
      (a.handlePropose msg nowMillis build).1.pendingBlocks.value.lookup d =
        some (A.encode block) ∧
      A.hashSlow block.header = d.get ∧ A.parentHash block.header = p.hash ∧
      (a.handlePropose msg nowMillis build).1.info d = some i ∧
      i.number.toNat = p.number.toNat + 1
  unknown : a.info msg.parent.2 = none → (a.handlePropose msg nowMillis build).2 = none ∧
    SameStores (a.handlePropose msg nowMillis build).1 a

end Definitions

/-- The request for a parent that is not recorded. -/
def unknownParentRequest (msg : Propose) (nowMillis : UInt64) : BuildPayloadRequest :=
  buildRequest ∅ msg nowMillis

namespace ProposeParentLemmas

variable {A : Alloy} {a : Actor} {msg : Propose} {nowMillis : UInt64}
  {build : BuildPayloadRequest → Except String BuiltPayload}

/-! ## The handler -/

theorem buildRequest_unknown (h : a.info msg.parent.2 = none) :
    buildRequest a.blockInfo.value msg nowMillis = unknownParentRequest msg nowMillis := by
  have hparent : parentOf a.blockInfo.value msg.parent.2 = parentOf ∅ msg.parent.2 := by
    rw [parentOf, show a.blockInfo.value.lookup msg.parent.2 = none from h]
    rfl
  simp only [unknownParentRequest, buildRequest, hparent]

/-- What the handler stores when the builder returns a payload. -/
theorem handlePropose_built (hl : a.Healthy) {payload : BuiltPayload}
    (h : build (buildRequest a.blockInfo.value msg nowMillis) = .ok payload) :
    (a.handlePropose msg nowMillis build).2 = some ⟨payload.blockHash⟩ ∧
      (a.handlePropose msg nowMillis build).1.info ⟨payload.blockHash⟩ = some
        (proposedInfo msg (buildRequest a.blockInfo.value msg nowMillis) payload) ∧
      (a.handlePropose msg nowMillis build).1.pendingBlocks.value.lookup ⟨payload.blockHash⟩ =
        some payload.blockBytes := by
  rw [handlePropose_eq, if_neg (Bool.eq_false_iff.mp hl.blockInfo), h]
  exact ⟨rfl, Lock.lookup_insert_self hl.blockInfo _ _,
    Lock.lookup_insert_self hl.pendingBlocks _ _⟩

theorem handlePropose_failed (hl : a.Healthy) {reason : String}
    (h : build (buildRequest a.blockInfo.value msg nowMillis) = .error reason) :
    (a.handlePropose msg nowMillis build).2 = none ∧
      SameStores (a.handlePropose msg nowMillis build).1 a := by
  rw [handlePropose_eq, if_neg (Bool.eq_false_iff.mp hl.blockInfo), h]
  exact ⟨rfl, ⟨rfl, rfl, rfl, rfl, rfl⟩⟩

/-! ## The two directions -/

theorem buildsOnKnown_of_recorded (hl : a.Healthy) (hb : BuildsAsAsked A build) {p : BlockInfo}
    (hp : a.info msg.parent.2 = some p) : BuildsOnKnown A a msg nowMillis build where
  answered := by
    intro d hd
    cases hbuilt : build (buildRequest a.blockInfo.value msg nowMillis) with
    | error reason =>
      rw [(handlePropose_failed hl hbuilt).1] at hd
      cases hd
    | ok payload =>
      obtain ⟨hans, hinfo, hpending⟩ := handlePropose_built hl hbuilt
      rw [hans] at hd
      cases hd
      obtain ⟨block, hbytes, hhash, hnum, hparent, hnext⟩ := hb _ _ hbuilt
      obtain ⟨hreqHash, hreqNum, _, _⟩ := buildRequest_known nowMillis hp
      refine ⟨p, _, block, hp, by rw [hpending, hbytes], hhash.symm, hparent.trans hreqHash,
        hinfo, ?_⟩
      show payload.blockNumber.toNat = _
      rw [hnum, hnext, hreqNum]
  unknown := by
    intro hnone
    rw [hp] at hnone
    cases hnone

theorem buildsOnKnown_of_refused (hl : a.Healthy) (hn : a.info msg.parent.2 = none)
    {reason : String} (hr : build (unknownParentRequest msg nowMillis) = .error reason) :
    BuildsOnKnown A a msg nowMillis build := by
  rw [← buildRequest_unknown hn] at hr
  have hfail := handlePropose_failed hl hr
  refine ⟨fun d hd => ?_, fun _ => hfail⟩
  rw [hfail.1] at hd
  cases hd

theorem refused_of_buildsOnKnown (hl : a.Healthy) (hn : a.info msg.parent.2 = none)
    (h : BuildsOnKnown A a msg nowMillis build) :
    ∃ reason, build (unknownParentRequest msg nowMillis) = .error reason := by
  rw [← buildRequest_unknown hn]
  cases hbuilt : build (buildRequest a.blockInfo.value msg nowMillis) with
  | error reason => exact ⟨reason, rfl⟩
  | ok payload =>
    have hans := (handlePropose_built hl hbuilt).1
    rw [(h.unknown hn).1] at hans
    cases hans

end ProposeParentLemmas

open ProposeParentLemmas

/-- The event loop, from a mailbox with a `Propose` at its head to the builder's
answer, does what `handle_propose` does. -/
theorem handlePropose_eq_loop {s : App} {msg : Propose} {rest : List Message}
    (hidle : s.stage = .idle) (hrecv : s.receiver = .propose msg :: rest)
    (hl : s.blockInfo.poisoned = false) (nowMillis : UInt64)
    (build : BuildPayloadRequest → Except String BuiltPayload) :
    let req := buildRequest s.blockInfo.value msg nowMillis
    let s' := (s.step (.recv nowMillis)).step (.built (build req))
    let handled := { s.toActor with receiver := rest }.handlePropose msg nowMillis build
    s'.toActor = handled.1 ∧ s'.answers = s.answers ++ [.proposed msg handled.2] := by
  intro req s' handled
  have hstep : s.step (.recv nowMillis) =
      { s with
        toActor := counted { s.toActor with receiver := rest }
        stage := .building msg req } := by
    have hreq : proposeRequest { s.toActor with receiver := rest } msg nowMillis =
        (counted { s.toActor with receiver := rest }, some req) := proposeRequest_eq hl
    simp only [App.step, hidle, hrecv, App.receive, hreq]
  have hhandled : handled = (counted { s.toActor with receiver := rest }).proposeRecord msg req
      (build req) :=
    (handlePropose_eq _ msg nowMillis build).trans (if_neg (Bool.eq_false_iff.mp hl))
  show ((s.step (.recv nowMillis)).step (.built (build req))).toActor = _ ∧
    ((s.step (.recv nowMillis)).step (.built (build req))).answers = _
  rw [hstep, hhandled]
  exact ⟨rfl, rfl⟩

/-- In every reachable state, for every `Propose` and every builder that builds
exactly what it is asked: a digest is answered only for a block on the record of
the parent, with the next number, and an unknown parent leaves the proposal
unanswered and the stores unchanged, exactly when the parent is recorded or the
builder refuses the request for an unknown parent. -/
theorem proposal_on_known_parent_iff {A : Alloy} (validators : ValidatorSet)
    (metrics : Option ConsensusMetrics) (g : GenesisInfo) (es : List App.Event) (msg : Propose)
    (nowMillis : UInt64) (build : BuildPayloadRequest → Except String BuiltPayload)
    (hb : BuildsAsAsked A build) :
    BuildsOnKnown A (run App.step (App.new validators metrics g) es).toActor msg nowMillis build ↔
      ((run App.step (App.new validators metrics g) es).info msg.parent.2).isSome ∨
        ∃ reason, build (unknownParentRequest msg nowMillis) = .error reason := by
  have hl := App.healthy_run validators metrics g es
  cases hp : (run App.step (App.new validators metrics g) es).info msg.parent.2 with
  | some p => exact ⟨fun _ => .inl rfl, fun _ => buildsOnKnown_of_recorded hl hb hp⟩
  | none =>
    constructor
    · exact fun h => .inr (refused_of_buildsOnKnown hl hp h)
    · rintro (hsome | ⟨reason, hr⟩)
      · cases hsome
      · exact buildsOnKnown_of_refused hl hp hr

/-! ## The builder of the tests -/

namespace ProposeParentLemmas

/-- The header fields that `build_empty_block` takes from the request. -/
structure EmptyHeader where
  parentHash : B256
  number : UInt64
  timestamp : UInt64
deriving DecidableEq

/-- Empty blocks. The number stands in for the last byte of the hash. -/
def emptyAlloy : Alloy where
  Header := EmptyHeader
  Body := Unit
  parentHash := EmptyHeader.parentHash
  number := EmptyHeader.number
  timestamp := EmptyHeader.timestamp
  hashSlow := fun h =>
    ⟨h.parentHash.bytes.set 31 h.number.toUInt8, by rw [List.length_set]; exact h.parentHash.size⟩
  encode := fun b =>
    b.header.parentHash.bytes ++ [b.header.number.toUInt8, b.header.timestamp.toUInt8]
  decode := fun bytes =>
    match parseBlockMessage bytes with
    | some (d, number :: timestamp :: rest) =>
      .ok (⟨⟨d.get, number.toUInt64, timestamp.toUInt64⟩, ()⟩, rest)
    | _ => .error "input too short"
  printable := fun _ => true

/-- `build_empty_block` of the consensus tests. The addition panics on overflow. -/
def buildEmptyBlock (req : BuildPayloadRequest) : Except String BuiltPayload :=
  if req.parentNumber.toNat + 1 < UInt64.size then
    let header : EmptyHeader := ⟨req.parentHash, req.parentNumber + 1, req.timestamp⟩
    .ok ⟨emptyAlloy.encode ⟨header, ()⟩, emptyAlloy.hashSlow header, header.number,
      req.timestampMillis⟩
  else .error "attempt to add with overflow"

theorem buildEmptyBlock_buildsAsAsked : BuildsAsAsked emptyAlloy buildEmptyBlock := by
  intro req payload h
  unfold buildEmptyBlock at h
  split at h
  · next hlt =>
    cases h
    refine ⟨⟨⟨req.parentHash, req.parentNumber + 1, req.timestamp⟩, ()⟩, rfl, rfl, rfl, rfl, ?_⟩
    show (req.parentNumber + 1).toNat = req.parentNumber.toNat + 1
    rw [UInt64.toNat_add]
    exact Nat.mod_eq_of_lt hlt
  · cases h

/-- A node that has just started: it has a record of genesis only. -/
def started : App := App.new sampleValidators none sampleGenesisInfo

/-- A proposal at view 5 on `parent`. -/
def proposeOn (parent : Digest) : Propose := ⟨(4, parent), ⟨0, 5⟩, sampleKey⟩

end ProposeParentLemmas

theorem genesis_parent_built_on :
    BuildsOnKnown emptyAlloy started.toActor (proposeOn .EMPTY) 11000 buildEmptyBlock :=
  (proposal_on_known_parent_iff _ none _ [] (proposeOn .EMPTY) 11000 buildEmptyBlock
    buildEmptyBlock_buildsAsAsked).mpr (.inl (by decide))

/-- A node that missed a block is asked to propose on it: it answers with a block
of number 1 on the zero hash, and records and stores that block. -/
theorem unknown_parent_proposed :
    let parent : Digest := ⟨B256.repeatByte 9⟩
    let handled := started.handlePropose (proposeOn parent) 11000 buildEmptyBlock
    let orphan : EmptyHeader := ⟨B256.ZERO, 1, 11⟩
    BuildsAsAsked emptyAlloy buildEmptyBlock ∧ started.info parent = none ∧
      handled.2 = some ⟨emptyAlloy.hashSlow orphan⟩ ∧
      handled.1.info ⟨emptyAlloy.hashSlow orphan⟩ =
        some ⟨1, emptyAlloy.hashSlow orphan, 5, sampleKey, 11, 11000⟩ ∧
      handled.1.pendingBlocks.value.lookup ⟨emptyAlloy.hashSlow orphan⟩ =
        some (emptyAlloy.encode ⟨orphan, ()⟩) ∧
      ¬ BuildsOnKnown emptyAlloy started.toActor (proposeOn parent) 11000 buildEmptyBlock := by
  refine ⟨buildEmptyBlock_buildsAsAsked, by decide, by decide, by decide, by decide, fun h => ?_⟩
  exact absurd (h.unknown (by decide)).1 (by decide)

end Allegro
