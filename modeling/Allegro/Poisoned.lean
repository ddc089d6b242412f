import Allegro.Node

/-!
# Answers under poisoned locks

Each handler treats the poison error of each lock in its own way. A `Propose`
whose parent cannot be looked up is dropped, and a `Verify` under a poisoned
`pending_blocks` is answered `false`. But the writes that follow the builder's
answer log the error and go on, so a digest can be answered that the stores do
not hold, and a block can be voted for that was not recorded.

Results:
1. `proposeRecord_recordedEverywhere`: which locks the record of a proposal needs.
2. `all_or_nothing_iff`: when the answers of the two handlers are backed by the
   stores, for every combination of poisoned locks.
3. `poisoned_answers_unbacked`: two answers that are not.
-/

namespace Allegro

open Actor

/-- The digest is in the three stores that `handle_propose` writes. -/
structure RecordedEverywhere (a : Actor) (d : Digest) : Prop where
  info : (a.info d).isSome
  pending : (a.pendingBlocks.value.lookup d).isSome
  proposed : d ∈ a.proposals.value

/-- `handle_propose` answers a digest that is recorded, or it does not answer and
leaves the stores as they were. -/
def AllOrNothing (a : Actor) (msg : Propose) (nowMillis : UInt64)
    (build : BuildPayloadRequest → Except String BuiltPayload) : Prop :=
  match a.handlePropose msg nowMillis build with
  | (a', some d) => RecordedEverywhere a' d
  | (a', none) => SameStores a' a

/-- `handle_verify` answers `true` only for a block that is recorded afterwards. -/
def TrueOnlyRecorded (a : Actor) (msg : Verify)
    (validate : Bytes → B256 → Except String ValidationResult) : Prop :=
  (a.handleVerify msg validate).2 = true →
    ((a.handleVerify msg validate).1.info msg.payload).isSome

namespace PoisonedLemmas

variable {a : Actor}

/-- Each of the three stores has the digest of a built block if its lock is
healthy, or if it had the digest before. -/
theorem proposeRecord_recordedEverywhere (msg : Propose) (req : BuildPayloadRequest)
    (payload : BuiltPayload) :
    RecordedEverywhere (a.proposeRecord msg req (.ok payload)).1 ⟨payload.blockHash⟩ ↔
      (a.blockInfo.poisoned = false ∨ (a.info ⟨payload.blockHash⟩).isSome) ∧
      (a.pendingBlocks.poisoned = false ∨
        (a.pendingBlocks.value.lookup ⟨payload.blockHash⟩).isSome) ∧
      (a.proposals.poisoned = false ∨ ⟨payload.blockHash⟩ ∈ a.proposals.value) := by
  constructor
  · rintro ⟨hinfo, hpending, hproposed⟩
    exact ⟨Lock.lookup_insert_self_isSome.mp hinfo, Lock.lookup_insert_self_isSome.mp hpending,
      Lock.mem_modify_concat.mp hproposed⟩
  · rintro ⟨hinfo, hpending, hproposed⟩
    exact ⟨Lock.lookup_insert_self_isSome.mpr hinfo, Lock.lookup_insert_self_isSome.mpr hpending,
      Lock.mem_modify_concat.mpr hproposed⟩

theorem allOrNothing_iff (msg : Propose) (nowMillis : UInt64)
    (build : BuildPayloadRequest → Except String BuiltPayload) :
    AllOrNothing a msg nowMillis build ↔
      a.blockInfo.poisoned = true ∨
        ∀ payload, build (buildRequest a.blockInfo.value msg nowMillis) = .ok payload →
          (a.pendingBlocks.poisoned = false ∨
            (a.pendingBlocks.value.lookup ⟨payload.blockHash⟩).isSome) ∧
          (a.proposals.poisoned = false ∨ ⟨payload.blockHash⟩ ∈ a.proposals.value) := by
  unfold AllOrNothing
  rw [handlePropose_eq]
  cases hl : a.blockInfo.poisoned with
  | true => exact ⟨fun _ => .inl rfl, fun _ => ⟨rfl, rfl, rfl, rfl, rfl⟩⟩
  | false =>
    rw [if_neg Bool.false_ne_true, or_iff_right (nomatch ·)]
    cases build (buildRequest a.blockInfo.value msg nowMillis) with
    | error reason => exact ⟨fun _ _ h => (nomatch h), fun _ => ⟨rfl, rfl, rfl, rfl, rfl⟩⟩
    | ok payload =>
      -- the records can be written, the other two stores decide
      show RecordedEverywhere ((counted a).proposeRecord msg _ (.ok payload)).1 _ ↔ _
      rw [proposeRecord_recordedEverywhere]
      constructor
      · rintro ⟨_, hrest⟩ payload' hp
        cases hp
        exact hrest
      · intro h
        exact ⟨.inl hl, h payload rfl⟩

theorem trueOnlyRecorded_iff (msg : Verify)
    (validate : Bytes → B256 → Except String ValidationResult) :
    TrueOnlyRecorded a msg validate ↔
      ((a.validators.lookup msg.proposer).isSome → a.pendingBlocks.poisoned = false →
        (∃ bytes, a.blockBytes a.pendingBlocks.value msg.payload = some bytes ∧
          Accepts (validate bytes msg.parent.2.get)) →
        a.blockInfo.poisoned = false ∨ (a.info msg.payload).isSome) := by
  unfold TrueOnlyRecorded
  rw [handleVerify_true_iff]
  constructor
  · rintro h hv hp ⟨bytes, hb, m, hm, hagree⟩
    have hsome := h ⟨hv, hp, bytes, hb, m, hm, hagree⟩
    rw [handleVerify_accepts hv hp hb hm hagree] at hsome
    exact Lock.lookup_insert_self_isSome.mp hsome
  · rintro h ⟨hv, hp, bytes, hb, m, hm, hagree⟩
    rw [handleVerify_accepts hv hp hb hm hagree]
    exact Lock.lookup_insert_self_isSome.mpr (h hv hp ⟨bytes, hb, m, hm, hagree⟩)

end PoisonedLemmas

open PoisonedLemmas

/-- For every state, every message, every builder and every combination of
poisoned locks. `handle_propose` is all or nothing exactly if it is stopped by a
poisoned `block_info`, the build fails, or `pending_blocks` and `proposals` can
be written or hold the digest already. `handle_verify` answers `true` only for a
recorded block exactly if `block_info` can be written or holds the digest
already, unless the block is rejected. -/
theorem all_or_nothing_iff (a : Actor) :
    (∀ msg nowMillis build, AllOrNothing a msg nowMillis build ↔
      a.blockInfo.poisoned = true ∨
        ∀ payload, build (buildRequest a.blockInfo.value msg nowMillis) = .ok payload →
          (a.pendingBlocks.poisoned = false ∨
            (a.pendingBlocks.value.lookup ⟨payload.blockHash⟩).isSome) ∧
          (a.proposals.poisoned = false ∨ ⟨payload.blockHash⟩ ∈ a.proposals.value)) ∧
    (∀ msg validate, TrueOnlyRecorded a msg validate ↔
      ((a.validators.lookup msg.proposer).isSome → a.pendingBlocks.poisoned = false →
        (∃ bytes, a.blockBytes a.pendingBlocks.value msg.payload = some bytes ∧
          Accepts (validate bytes msg.parent.2.get)) →
        a.blockInfo.poisoned = false ∨ (a.info msg.payload).isSome)) :=
  ⟨fun msg nowMillis build => allOrNothing_iff msg nowMillis build,
    fun msg validate => trueOnlyRecorded_iff msg validate⟩

/-! ## Two answers -/

namespace PoisonedLemmas

/-- A node whose `pending_blocks` is poisoned. -/
def pendingPoisoned : Actor :=
  { Actor.fresh sampleValidators none sampleGenesisInfo with pendingBlocks := ⟨∅, true⟩ }

/-- A node that has received block `one`, and whose `block_info` is poisoned. -/
def infoPoisoned : Actor :=
  let a := receiveBlock (Actor.fresh sampleValidators none sampleGenesisInfo)
    (wireMessage SampleHeader.one.digest [2])
  { a with blockInfo := ⟨a.blockInfo.value, true⟩ }

end PoisonedLemmas

/-- A proposal is answered whose bytes the relay will not find, and a block is
voted for that no later proposal can build on. -/
theorem poisoned_answers_unbacked :
    ((pendingPoisoned.handlePropose (samplePropose .EMPTY 1) 11000 buildOne).2 =
        some SampleHeader.one.digest ∧
      (pendingPoisoned.handlePropose (samplePropose .EMPTY 1) 11000 buildOne).1.pendingBlocks.value
        = ∅ ∧
      ¬ AllOrNothing pendingPoisoned (samplePropose .EMPTY 1) 11000 buildOne) ∧
    ((infoPoisoned.handleVerify (sampleVerify .EMPTY SampleHeader.one.digest 1) validateOne).2 =
        true ∧
      (infoPoisoned.handleVerify (sampleVerify .EMPTY SampleHeader.one.digest 1)
        validateOne).1.info SampleHeader.one.digest = none ∧
      ¬ TrueOnlyRecorded infoPoisoned (sampleVerify .EMPTY SampleHeader.one.digest 1)
        validateOne) := by
  have hpend : (pendingPoisoned.handlePropose (samplePropose .EMPTY 1) 11000
      buildOne).1.pendingBlocks.value = ∅ := by decide
  have htrue : (infoPoisoned.handleVerify (sampleVerify .EMPTY SampleHeader.one.digest 1)
      validateOne).2 = true := by decide
  have hnone : (infoPoisoned.handleVerify (sampleVerify .EMPTY SampleHeader.one.digest 1)
      validateOne).1.info SampleHeader.one.digest = none := by decide
  refine ⟨⟨by decide, hpend, fun h => ?_⟩, htrue, hnone, fun h => ?_⟩
  · have hfound : ((pendingPoisoned.handlePropose (samplePropose .EMPTY 1) 11000
        buildOne).1.pendingBlocks.value.lookup SampleHeader.one.digest).isSome :=
      RecordedEverywhere.pending h
    rw [hpend] at hfound
    exact nomatch hfound
  · have hfound : ((infoPoisoned.handleVerify (sampleVerify .EMPTY SampleHeader.one.digest 1)
        validateOne).1.info SampleHeader.one.digest).isSome := h htrue
    rw [hnone] at hfound
    exact nomatch hfound

end Allegro
