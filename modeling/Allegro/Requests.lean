import Allegro.EngineSteps
import Allegro.Lib.Service

/-!
# Rejected and failed requests are invisible

The handlers of the actor have eight exits without a record: a `Propose` is
dropped when the records cannot be read or the build fails, and a `Verify` is
answered `false` for six reasons. None of them leaves a trace in a store. The
handlers read the stores only, so a request that was refused can be left out:
the others are answered as before.

The handlers are taken as wholes here (`Actor.handle`), one request after the
other. A block message that arrives while a handler waits for the builder might
as well arrive after it (`receiveBlock_proposeRecord`,
`receiveBlock_verifyRecord`).

Results:
1. `handle_respects`: the answers depend on the stores only.
2. `handle_invisible`: a request that is refused leaves the stores as they are.
3. `refused_requests_invisible`: deleting the refused requests from a sequence.
-/

namespace Allegro

open Service Actor

/-- What reaches a node: the requests of the engine, a `Propose` with the clock
reading of its handler, and the messages of the block channel. -/
inductive Request
  | propose (msg : Propose) (nowMillis : UInt64)
  | verify (msg : Verify)
  | blockMessage (data : Bytes)
deriving DecidableEq

/-- The answer to a request. A block message has none. -/
inductive Response
  | proposed (digest : Option Digest)
  | verified (valid : Bool)
  | stored
deriving DecidableEq

/-- A `Propose` that was left unanswered, or a `Verify` that was answered `false`. -/
def refused : Request × Response → Bool
  | (_, .proposed none) => true
  | (_, .verified false) => true
  | _ => false

/-- One request, handled to its end. -/
def Actor.handle (build : BuildPayloadRequest → Except String BuiltPayload)
    (validate : Bytes → B256 → Except String ValidationResult) (a : Actor) :
    Request → Actor × Response
  | .propose msg nowMillis =>
    let (a, digest) := a.handlePropose msg nowMillis build
    (a, .proposed digest)
  | .verify msg =>
    let (a, valid) := a.handleVerify msg validate
    (a, .verified valid)
  | .blockMessage data => (receiveBlock a data, .stored)

namespace RequestsLemmas

variable {build : BuildPayloadRequest → Except String BuiltPayload}
  {validate : Bytes → B256 → Except String ValidationResult} {a b : Actor}

theorem sameStores_trans {c : Actor} (h : SameStores a b) (h' : SameStores b c) :
    SameStores a c where
  validators := h.validators.trans h'.validators
  proposals := h.proposals.trans h'.proposals
  pendingBlocks := h.pendingBlocks.trans h'.pendingBlocks
  receivedBlocks := h.receivedBlocks.trans h'.receivedBlocks
  blockInfo := h.blockInfo.trans h'.blockInfo

theorem sameStores_symm (h : SameStores a b) : SameStores b a where
  validators := h.validators.symm
  proposals := h.proposals.symm
  pendingBlocks := h.pendingBlocks.symm
  receivedBlocks := h.receivedBlocks.symm
  blockInfo := h.blockInfo.symm

/-- Counting is no change of the stores. -/
theorem sameStores_count (h : SameStores a b) (inc inc' : ConsensusMetrics → ConsensusMetrics) :
    SameStores (a.count inc) (b.count inc') :=
  ⟨h.validators, h.proposals, h.pendingBlocks, h.receivedBlocks, h.blockInfo⟩

/-! ## The handlers read the stores only -/

theorem proposeRecord_respects (h : SameStores a b) (msg : Propose) (req : BuildPayloadRequest)
    (result : Except String BuiltPayload) :
    (a.proposeRecord msg req result).2 = (b.proposeRecord msg req result).2 ∧
      SameStores (a.proposeRecord msg req result).1 (b.proposeRecord msg req result).1 := by
  cases result with
  | error reason => exact ⟨rfl, sameStores_count h _ _⟩
  | ok payload =>
    refine ⟨rfl, h.validators, ?_, ?_, h.receivedBlocks, ?_⟩
    · exact congrArg (Lock.modify fun list => list ++ [⟨payload.blockHash⟩]) h.proposals
    · exact congrArg (Lock.insert · _ payload.blockBytes) h.pendingBlocks
    · exact congrArg (Lock.insert · _ (proposedInfo msg req payload)) h.blockInfo

variable (build) in
theorem handlePropose_respects (h : SameStores a b) (msg : Propose) (nowMillis : UInt64) :
    (a.handlePropose msg nowMillis build).2 = (b.handlePropose msg nowMillis build).2 ∧
      SameStores (a.handlePropose msg nowMillis build).1
        (b.handlePropose msg nowMillis build).1 := by
  have hcounted : SameStores (counted a) (counted b) :=
    ⟨h.validators, h.proposals, h.pendingBlocks, h.receivedBlocks, h.blockInfo⟩
  rw [handlePropose_eq, handlePropose_eq, h.blockInfo]
  split
  · exact ⟨rfl, hcounted⟩
  · exact proposeRecord_respects hcounted msg _ _

theorem verifyRecord_respects (h : SameStores a b) (msg : Verify)
    (result : Except String ValidationResult) :
    (a.verifyRecord msg result).2 = (b.verifyRecord msg result).2 ∧
      SameStores (a.verifyRecord msg result).1 (b.verifyRecord msg result).1 := by
  by_cases ha : Accepts result
  · obtain ⟨m, rfl, hm⟩ := ha
    rw [verifyRecord_accepts a msg hm, verifyRecord_accepts b msg hm]
    exact ⟨rfl, h.validators, h.proposals, h.pendingBlocks, h.receivedBlocks,
      congrArg (Lock.insert · msg.payload (verifiedInfo msg m)) h.blockInfo⟩
  · obtain ⟨hsa, hfa⟩ := verifyRecord_refuses a msg ha
    obtain ⟨hsb, hfb⟩ := verifyRecord_refuses b msg ha
    have hback : SameStores b (b.verifyRecord msg result).1 := sameStores_symm hsb
    exact ⟨hfa.trans hfb.symm, sameStores_trans hsa (sameStores_trans h hback)⟩

theorem verifyLookup_respects (h : SameStores a b) (msg : Verify) :
    (a.verifyLookup msg).2 = (b.verifyLookup msg).2 ∧
      SameStores (a.verifyLookup msg).1 (b.verifyLookup msg).1 := by
  obtain ⟨hv, hprop, hpend, hrecv, hinfo⟩ := h
  have hsame : SameStores a b := ⟨hv, hprop, hpend, hrecv, hinfo⟩
  unfold verifyLookup blockBytes
  rw [hv, hpend, hrecv]
  split
  · exact ⟨rfl, sameStores_count hsame _ _⟩
  · split
    · exact ⟨rfl, hsame⟩
    · split
      · exact ⟨rfl, sameStores_count hsame _ _⟩
      · exact ⟨rfl, hsame⟩

variable (validate) in
theorem handleVerify_respects (h : SameStores a b) (msg : Verify) :
    (a.handleVerify msg validate).2 = (b.handleVerify msg validate).2 ∧
      SameStores (a.handleVerify msg validate).1 (b.handleVerify msg validate).1 := by
  obtain ⟨hstart, hstores⟩ := verifyLookup_respects h msg
  unfold handleVerify
  cases ha : a.verifyLookup msg with
  | mk a' start =>
    cases hb : b.verifyLookup msg with
    | mk b' start' =>
      rw [ha, hb] at hstart hstores
      cases hstart
      cases start with
      | answer valid => exact ⟨rfl, hstores⟩
      | validate bytes ph => exact verifyRecord_respects hstores msg _

theorem receiveBlock_respects (h : SameStores a b) (data : Bytes) :
    SameStores (receiveBlock a data) (receiveBlock b data) := by
  obtain ⟨hv, hprop, hpend, hrecv, hinfo⟩ := h
  unfold receiveBlock
  rw [hrecv]
  split
  · exact ⟨hv, hprop, hpend, hrecv, hinfo⟩
  · split
    · exact ⟨hv, hprop, hpend, hrecv, hinfo⟩
    · exact ⟨hv, hprop, hpend, rfl, hinfo⟩

/-- Actors with the same stores answer alike, and have the same stores afterwards. -/
theorem handle_respects : Respects (Actor.handle build validate) SameStores := by
  intro a b req h
  cases req with
  | propose msg nowMillis =>
    obtain ⟨hans, hstores⟩ := handlePropose_respects build h msg nowMillis
    exact ⟨congrArg Response.proposed hans, hstores⟩
  | verify msg =>
    obtain ⟨hans, hstores⟩ := handleVerify_respects validate h msg
    exact ⟨congrArg Response.verified hans, hstores⟩
  | blockMessage data => exact ⟨rfl, receiveBlock_respects h data⟩

/-! ## A refused request leaves the stores -/

theorem handlePropose_refused {msg : Propose} {nowMillis : UInt64}
    (h : (a.handlePropose msg nowMillis build).2 = none) :
    SameStores (a.handlePropose msg nowMillis build).1 a := by
  rw [handlePropose_eq] at h ⊢
  split at h
  · next hl => rw [if_pos hl]; exact ⟨rfl, rfl, rfl, rfl, rfl⟩
  · next hl =>
    rw [if_neg hl]
    cases hb : build (buildRequest a.blockInfo.value msg nowMillis) with
    | error reason => exact ⟨rfl, rfl, rfl, rfl, rfl⟩
    | ok payload =>
      rw [hb] at h
      cases h

theorem handleVerify_refused {msg : Verify} (h : (a.handleVerify msg validate).2 = false) :
    SameStores (a.handleVerify msg validate).1 a := by
  have hstores := verifyLookup_sameStores a msg
  unfold handleVerify at h ⊢
  cases hl : a.verifyLookup msg with
  | mk a' start =>
    rw [hl] at h hstores
    cases start with
    | answer valid => exact hstores
    | validate bytes ph =>
      by_cases ha : Accepts (validate bytes ph)
      · obtain ⟨m, hm, hagree⟩ := ha
        simp only [hm, verifyRecord_accepts a' msg hagree] at h
        cases h
      · exact sameStores_trans (verifyRecord_refuses a' msg ha).1 hstores

/-- A request that is refused leaves the stores as they are. -/
theorem handle_invisible : Invisible (Actor.handle build validate) SameStores refused := by
  intro a req h
  cases req with
  | propose msg nowMillis =>
    cases hans : (a.handlePropose msg nowMillis build).2 with
    | none => exact handlePropose_refused hans
    | some digest =>
      simp only [Actor.handle, hans, refused] at h
      cases h
  | verify msg =>
    cases hans : (a.handleVerify msg validate).2 with
    | false => exact handleVerify_refused hans
    | true =>
      simp only [Actor.handle, hans, refused] at h
      cases h
  | blockMessage data => cases h

end RequestsLemmas

open RequestsLemmas

/-- A block message that arrives while `handle_propose` waits for the builder might
as well arrive after it. -/
theorem receiveBlock_proposeRecord (a : Actor) (data : Bytes) (msg : Propose)
    (req : BuildPayloadRequest) (result : Except String BuiltPayload) :
    (receiveBlock a data).proposeRecord msg req result =
      (receiveBlock (a.proposeRecord msg req result).1 data,
        (a.proposeRecord msg req result).2) := by
  obtain ⟨_, _, _, _, _, ⟨received, poisoned⟩, _, metrics⟩ := a
  unfold receiveBlock
  cases result with
  | error reason =>
    split
    · rfl
    · cases poisoned <;> cases metrics <;> rfl
  | ok payload =>
    split
    · rfl
    · cases poisoned <;> cases metrics <;> rfl

/-- The same while `handle_verify` waits. -/
theorem receiveBlock_verifyRecord (a : Actor) (data : Bytes) (msg : Verify)
    (result : Except String ValidationResult) :
    (receiveBlock a data).verifyRecord msg result =
      (receiveBlock (a.verifyRecord msg result).1 data, (a.verifyRecord msg result).2) := by
  obtain ⟨_, _, _, _, _, ⟨received, poisoned⟩, _, metrics⟩ := a
  unfold receiveBlock
  split
  · rfl
  · match result with
    | .ok (.valid m) =>
      by_cases hm : timestampsAgree m = true
      · simp only [verifyRecord_accepts _ msg hm]
        cases poisoned <;> cases metrics <;> rfl
      · simp only [verifyRecord_disagrees _ msg hm]
        cases poisoned <;> cases metrics <;> rfl
    | .ok (.invalid _) => cases poisoned <;> cases metrics <;> rfl
    | .error _ => cases poisoned <;> cases metrics <;> rfl

/-- Delete from any sequence of requests and block messages, handled from any
state with any builder, the `Verify`s that are answered `false` and the
`Propose`s that are left unanswered. The remaining ones have the same answers,
and the four stores are the same in the end. -/
theorem refused_requests_invisible (build : BuildPayloadRequest → Except String BuiltPayload)
    (validate : Bytes → B256 → Except String ValidationResult) (a : Actor)
    (reqs : List Request) :
    let handle := Actor.handle build validate
    let rest := (visible refused (exchange handle a reqs)).map Prod.fst
    exchange handle a rest = visible refused (exchange handle a reqs) ∧
      (final handle a reqs).blockInfo = (final handle a rest).blockInfo ∧
      (final handle a reqs).pendingBlocks = (final handle a rest).pendingBlocks ∧
      (final handle a reqs).receivedBlocks = (final handle a rest).receivedBlocks ∧
      (final handle a reqs).proposals = (final handle a rest).proposals := by
  intro handle rest
  obtain ⟨hanswers, hstores⟩ := exchange_delete (R := SameStores) sameStores_trans
    handle_respects handle_invisible (SameStores.refl a) reqs
  exact ⟨hanswers, hstores.blockInfo, hstores.pendingBlocks, hstores.receivedBlocks,
    hstores.proposals⟩

end Allegro
