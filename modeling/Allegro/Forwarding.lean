import Allegro.Node

/-!
# Which blocks does the relay forward?

`BlockRelay` has the store of blocks that this node has proposed, and no other.
`handle_verify` looks into that store and into the blocks received from peers. A
request to forward a block is served for the node's own blocks, with the bytes
that the node would verify. For a block of another validator it is a request for
a block that is "not in pending store", and nothing is sent.

Results:
1. `pending_iff_proposed`: `pending_blocks` holds what the node has proposed.
2. `relay_forwards_own_blocks`: what `broadcast` submits for a block that the node
   can verify.
3. `verified_block_not_forwarded`: a peer's block, verified and not forwarded.
-/

namespace Allegro

open Run Actor

namespace ForwardingLemmas

variable {s : App} {d : Digest}

/-- The node has answered a `Propose` with `d`. -/
def Proposed (s : App) (d : Digest) : Prop := ∃ msg, .proposed msg (some d) ∈ s.answers

theorem pending_iff_proposed_step (e : App.Event) (hl : s.Healthy)
    (h : (s.pendingBlocks.value.lookup d).isSome ↔ Proposed s d) :
    ((s.step e).pendingBlocks.value.lookup d).isSome ↔ Proposed (s.step e) d := by
  constructor
  · intro hsome
    obtain ⟨bytes, hbytes⟩ := Option.isSome_iff_exists.mp hsome
    rcases App.pending_step_cases hbytes with hold | ⟨msg, req, payload, hstage, rfl, rfl, _⟩
    · obtain ⟨msg, hmem⟩ := h.mp (by rw [hold]; rfl)
      exact ⟨msg, App.answers_step_mono e hmem⟩
    · refine ⟨msg, ?_⟩
      simp only [App.step, hstage, App.finishPropose, proposeRecord, App.respond]
      exact List.mem_append_right _ (List.mem_singleton_self _)
  · rintro ⟨msg, hmem⟩
    rcases App.mem_answers_step hmem with hold | hnew
    · exact App.pending_step_isSome e (h.mpr ⟨msg, hold⟩)
    · cases hnew with
      | proposed hstage =>
        rw [App.pending_step_of_built hl.pendingBlocks hstage]
        rfl

/-- A node holds in `pending_blocks` what it has proposed. -/
theorem pending_iff_proposed (validators : ValidatorSet) (metrics : Option ConsensusMetrics)
    (g : GenesisInfo) (es : List App.Event) (d : Digest) :
    let s := run App.step (App.new validators metrics g) es
    s.Healthy ∧ ((s.pendingBlocks.value.lookup d).isSome ↔ Proposed s d) := by
  refine run_invariant
    (P := fun s : App => s.Healthy ∧ ((s.pendingBlocks.value.lookup d).isSome ↔ Proposed s d)) ?_ ?_ es
  · rintro s e ⟨hl, h⟩
    exact ⟨App.healthy_step e hl, pending_iff_proposed_step e hl h⟩
  · refine ⟨App.healthy_new validators metrics g, fun h => (nomatch h), ?_⟩
    rintro ⟨_, hmem⟩
    cases hmem

end ForwardingLemmas

open ForwardingLemmas

/-- For every reachable state and every digest whose bytes `handle_verify` would
find, and a transport that lets the recipients through: asked to forward the
block, the relay submits the digest followed by exactly these bytes to exactly
these recipients if the node has proposed the block, and nothing otherwise. -/
theorem relay_forwards_own_blocks (validators : ValidatorSet) (metrics : Option ConsensusMetrics)
    (g : GenesisInfo) (es : List App.Event) (d : Digest) (bytes : Bytes) (round : Round)
    (recipients : Recipients) (transport : Transport) :
    let s := run App.step (App.new validators metrics g) es
    s.blockBytes s.pendingBlocks.value d = some bytes → transport.check recipients = true →
      ((∃ msg, .proposed msg (some d) ∈ s.answers) →
        (BlockRelay.broadcast s.toActor d (.forward round recipients) transport).map Prod.snd =
          some (some ⟨recipients, wireMessage d bytes⟩)) ∧
      ((¬ ∃ msg, .proposed msg (some d) ∈ s.answers) →
        (BlockRelay.broadcast s.toActor d (.forward round recipients) transport).map Prod.snd =
          some none) := by
  intro s hbytes hcheck
  obtain ⟨hl, hown⟩ := pending_iff_proposed validators metrics g es d
  constructor
  · intro hproposed
    obtain ⟨own, hlookup⟩ := Option.isSome_iff_exists.mp (hown.mpr hproposed)
    -- own blocks come first in the lookup of `handle_verify`
    rw [blockBytes, hlookup, Option.some_or] at hbytes
    cases hbytes
    exact broadcast_pending hl.pendingBlocks hlookup hcheck
  · intro hforeign
    have hlookup : s.pendingBlocks.value.lookup d = none := by
      rw [← Option.not_isSome_iff_eq_none]
      exact fun h => hforeign (hown.mp h)
    exact broadcast_absent hl.pendingBlocks hlookup _ transport

/-! ## Two blocks -/

namespace ForwardingLemmas

/-- Block `one` is proposed. -/
def proposing : List App.Event :=
  [.enqueue (.propose (samplePropose .EMPTY 1)), .recv 11000,
    .built (.ok ⟨[2], SampleHeader.one.hash, 1, 11000⟩)]

/-- Block `one` arrives from its leader and is verified. -/
def verifying : List App.Event :=
  [.blockMessage (wireMessage SampleHeader.one.digest [2]),
    .enqueue (.verify (sampleVerify .EMPTY SampleHeader.one.digest 1)), .recv 0,
    .validated (.ok (.valid ⟨SampleHeader.one.hash, 1, 11, 11000⟩))]

def openTransport : Transport := ⟨fun _ => true, true⟩

end ForwardingLemmas

/-- The leader can send its block once more, to a voter that missed it. -/
theorem proposed_block_forwarded :
    let s := run App.step (App.new sampleValidators none sampleGenesisInfo) proposing
    s.blockBytes s.pendingBlocks.value SampleHeader.one.digest = some [2] ∧
      (BlockRelay.broadcast s.toActor SampleHeader.one.digest (.forward ⟨0, 1⟩ (.one sampleKey))
        openTransport).map Prod.snd =
        some (some ⟨.one sampleKey, wireMessage SampleHeader.one.digest [2]⟩) := by
  intro s
  have hbytes : s.blockBytes s.pendingBlocks.value SampleHeader.one.digest = some [2] := by decide
  have hproposed : .proposed (samplePropose .EMPTY 1) (some SampleHeader.one.digest) ∈ s.answers := by
    decide
  exact ⟨hbytes, (relay_forwards_own_blocks sampleValidators none sampleGenesisInfo proposing
    SampleHeader.one.digest [2] ⟨0, 1⟩ (.one sampleKey) openTransport hbytes rfl).1 ⟨_, hproposed⟩⟩

/-- A peer that has verified the block, and holds its bytes, sends nothing. -/
theorem verified_block_not_forwarded :
    let s := run App.step (App.new sampleValidators none sampleGenesisInfo) verifying
    s.answers = [.verified (sampleVerify .EMPTY SampleHeader.one.digest 1) true] ∧
      s.blockBytes s.pendingBlocks.value SampleHeader.one.digest = some [2] ∧
      openTransport.check (.one sampleKey) = true ∧
      (BlockRelay.broadcast s.toActor SampleHeader.one.digest (.forward ⟨0, 1⟩ (.one sampleKey))
        openTransport).map Prod.snd = some none := by
  intro s
  exact ⟨by decide, by decide, rfl, by decide⟩

end Allegro
