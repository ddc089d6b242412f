import Allegro.Node

/-!
# Does the digest bind the block?

A proposer takes the digest of its block from the block hash. A verifier takes
the digest from the consensus proposal and the block from bytes that arrived
under that digest on the block channel, and records the hash of what it decoded
without comparing the two. So `block_info` maps a digest to the block with that
hash exactly in the runs in which the bytes under verification hash to their
payload (`HashesToPayload`).

Results:
1. `hashesToPayload_step`: a step keeps the binding exactly when it meets that
   condition.
2. `digest_binds_iff_bytes_hash_to_payload`: the same for runs, and what it
   means for the finalizer of one node and of two nodes.
3. `forged_bytes_break_binding`: one message with the bytes of another valid
   block breaks the binding.
-/

namespace Allegro

open Run Node

/-- Every record except that of genesis holds the hash its digest names. -/
def DigestBinds (n : Node) : Prop :=
  ∀ d i, d ≠ Digest.EMPTY → n.info d = some i → i.hash = d.get

/-- The bytes under verification for a payload other than `EMPTY` hash to the
payload, or the execution layer does not report them valid. -/
def HashesToPayload (A : Alloy) (n : Node) : Node.Event (Reth A) → Prop
  | .validated reth =>
    match n.stage with
    | .validating msg bytes _ =>
      match A.decode bytes with
      | .ok (block, _) =>
        msg.payload ≠ Digest.EMPTY → reth.newPayload block = .ok .valid →
          Actor.timestampsAgree (blockMeta A block.header) = true →
          A.hashSlow block.header = msg.payload.get
      | .error _ => True
    | _ => True
  | _ => True

/-- Every finalization forkchoice update carries the hash its digest names. -/
def FcuBinds (n : Node) : Prop :=
  ∀ d state, d ≠ Digest.EMPTY → .finalizeFcu d state ∈ n.log → state = finalizeForkchoice d.get

namespace DigestBindingLemmas

variable {A : Alloy} {n : Node} {e : Node.Event (Reth A)}

/-- The binding after a step, from the binding before it. A built block is
recorded under its own hash. -/
theorem digestBinds_step (h : DigestBinds n) (hC : HashesToPayload A n e) :
    DigestBinds (n.prodStep A e) := by
  intro d i hd hi
  rcases Node.info_step_cases hi with hold | hrec
  · exact h d i hd hold
  · cases hrec with
    | proposed _ _ _ => rfl
    | verified hstage hv hm =>
      obtain ⟨block, rest, hdec, hvalid, rfl⟩ := validateClosure_valid.mp hv
      simp only [HashesToPayload, hstage, hdec] at hC
      exact hC hd hvalid hm

/-- Without the condition, the step records a hash its digest does not name. -/
theorem hashesToPayload_of_digestBinds (hl : n.blockInfo.poisoned = false)
    (h : DigestBinds (n.prodStep A e)) : HashesToPayload A n e := by
  cases e with
  | validated reth =>
    simp only [HashesToPayload]
    split
    · next msg bytes ph hstage =>
      split
      · next block rest hdec =>
        intro hd hvalid hm
        have hrec : Records (createEnginePayloadBuilder A) n (.validated reth) msg.payload
            (Actor.verifiedInfo msg (blockMeta A block.header)) :=
          .verified hstage (validateClosure_valid.mpr ⟨block, rest, hdec, hvalid, rfl⟩) hm
        exact h msg.payload _ hd (Node.info_step_of_records hl hrec)
      · trivial
    · trivial
  | _ => trivial

theorem hashesToPayload_step (hl : n.Healthy) (h : DigestBinds n) :
    HashesToPayload A n e ↔ DigestBinds (n.prodStep A e) :=
  ⟨digestBinds_step h, hashesToPayload_of_digestBinds hl.blockInfo⟩

theorem digestBinds_start (c : Config A) : DigestBinds (Node.start c) := by
  intro d i hd hi
  exact absurd (App.info_new hi).1 hd

/-- The finalizer submits what it finds recorded. -/
theorem fcuBinds_step (h : DigestBinds n) (hf : FcuBinds n) : FcuBinds (n.prodStep A e) := by
  intro d state hd hmem
  rcases Node.mem_log_step hmem with hold | hnew
  · exact hf d state hd hold
  · cases hnew with
    | submitted _ _ hinfo => rw [h _ _ hd hinfo]

/-- In a run that meets the condition, every finalization forkchoice update
names the block of its digest. -/
theorem fcuBinds_run {c : Config A} {es : List (Node.Event (Reth A))}
    (h : Along (prodStep A) (HashesToPayload A) (Node.start c) es) :
    FcuBinds (run (prodStep A) (Node.start c) es) := by
  have hinv : DigestBinds (run (prodStep A) (Node.start c) es) ∧
      FcuBinds (run (prodStep A) (Node.start c) es) := by
    refine h.invariant (P := fun n => DigestBinds n ∧ FcuBinds n) ?_ ?_
    · intro n e hn hC
      exact ⟨digestBinds_step hn.1 hC, fcuBinds_step hn.1 hn.2⟩
    · exact ⟨digestBinds_start c, fun _ _ _ hmem => absurd hmem List.not_mem_nil⟩
  exact hinv.2

end DigestBindingLemmas

open DigestBindingLemmas

/-- The digest binds the block throughout a run exactly when every `Verify` for
a payload other than `EMPTY` is decided on bytes that hash to the payload (or
that the execution layer does not report valid). In such a run every
finalization forkchoice update for `d` carries `d` as head, safe and finalized
hash, so two nodes with such runs, whatever else they saw, never finalize
different blocks for one digest. -/
theorem digest_binds_iff_bytes_hash_to_payload {A : Alloy} (hA : A.CollisionFree) (c : Config A)
    (es : List (Node.Event (Reth A))) :
    (Along (prodStep A) (HashesToPayload A) (Node.start c) es ↔
      Always (prodStep A) DigestBinds (Node.start c) es) ∧
    (Along (prodStep A) (HashesToPayload A) (Node.start c) es →
      FcuBinds (run (prodStep A) (Node.start c) es) ∧
      ∀ (c' : Config A) (es' : List (Node.Event (Reth A))),
        Along (prodStep A) (HashesToPayload A) (Node.start c') es' →
        ∀ d state state', d ≠ Digest.EMPTY →
          .finalizeFcu d state ∈ (run (prodStep A) (Node.start c) es).log →
          .finalizeFcu d state' ∈ (run (prodStep A) (Node.start c') es').log →
          state = state' ∧ ∀ h h', A.hashSlow h = state.finalizedBlockHash →
            A.hashSlow h' = state'.finalizedBlockHash → h = h') := by
  refine ⟨?_, fun h => ⟨fcuBinds_run h, ?_⟩⟩
  · exact along_iff_always (D := fun _ _ => True) (H := fun n => n.Healthy)
      (fun n e hn => Node.healthy_step e hn) (fun n e hl _ hn => hashesToPayload_step hl hn)
      (along_of_forall fun _ _ => trivial) (App.healthy_new _ _ _) (digestBinds_start c)
  · intro c' es' h' d state state' hd hmem hmem'
    have hs : state = finalizeForkchoice d.get := fcuBinds_run h d state hd hmem
    have hs' : state' = finalizeForkchoice d.get := fcuBinds_run h' d state' hd hmem'
    refine ⟨hs.trans hs'.symm, fun hdr hdr' hh hh' => hA ?_⟩
    rw [hh, hh', hs, hs']

/-- Block `one` arrives under its own digest, is verified and finalized. -/
def honestBytesRun : List (Node.Event (Reth sampleAlloy)) :=
  [.blockMessage (wireMessage SampleHeader.one.digest [2]),
    .enqueue (.verify (sampleVerify .EMPTY SampleHeader.one.digest 1)), .recv 0,
    .validated (sampleReth .one), .report (.finalization SampleHeader.one.digest), .finalizerRecv]

/-- The same run, but the bytes that arrive under the digest of `one` are those of `fork`. -/
def forgedBytesRun : List (Node.Event (Reth sampleAlloy)) :=
  [.blockMessage (wireMessage SampleHeader.one.digest [4]),
    .enqueue (.verify (sampleVerify .EMPTY SampleHeader.one.digest 1)), .recv 0,
    .validated (sampleReth .one), .report (.finalization SampleHeader.one.digest), .finalizerRecv]

/-- On honest bytes the run meets the condition, and the finalizer names block `one`. -/
theorem honest_bytes_bind :
    Always (prodStep sampleAlloy) DigestBinds (Node.start sampleConfig) honestBytesRun ∧
      FcuBinds (run (prodStep sampleAlloy) (Node.start sampleConfig) honestBytesRun) ∧
      .finalizeFcu SampleHeader.one.digest (finalizeForkchoice SampleHeader.one.hash) ∈
        (run (prodStep sampleAlloy) (Node.start sampleConfig) honestBytesRun).log := by
  have h := digest_binds_iff_bytes_hash_to_payload sampleAlloy_collisionFree sampleConfig
    honestBytesRun
  have hC : Along (prodStep sampleAlloy) (HashesToPayload sampleAlloy) (Node.start sampleConfig)
      honestBytesRun := ⟨trivial, trivial, trivial, fun _ _ _ => rfl, trivial, trivial, trivial⟩
  exact ⟨h.1.mp hC, (h.2 hC).1, by decide⟩

/-- One forged block message: the node answers `true` for the digest of `one`,
records the hash of `fork` under it, and finalizes `fork`, while a node with the
honest bytes finalizes `one`. -/
theorem forged_bytes_break_binding :
    sampleAlloy.CollisionFree ∧
      ¬ DigestBinds (run (prodStep sampleAlloy) (Node.start sampleConfig) forgedBytesRun) ∧
      .finalizeFcu SampleHeader.one.digest (finalizeForkchoice SampleHeader.fork.hash) ∈
        (run (prodStep sampleAlloy) (Node.start sampleConfig) forgedBytesRun).log ∧
      .finalizeFcu SampleHeader.one.digest (finalizeForkchoice SampleHeader.one.hash) ∈
        (run (prodStep sampleAlloy) (Node.start sampleConfig) honestBytesRun).log ∧
      SampleHeader.fork.hash ≠ SampleHeader.one.hash := by
  refine ⟨sampleAlloy_collisionFree, fun h => ?_, by decide, by decide, by decide⟩
  have hinfo : (run (prodStep sampleAlloy) (Node.start sampleConfig) forgedBytesRun).info
      SampleHeader.one.digest = some ⟨1, SampleHeader.fork.hash, 1, sampleKey, 11, 11000⟩ := by
    decide
  exact absurd (h _ _ (by decide) hinfo) (by decide)

end Allegro
