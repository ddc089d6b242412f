import Allegro.Node

/-!
# Stores filled from an honest block channel

Where every message on the block channel carries the encoding of a block under
the hash of that block, the bytes a node keeps under a digest are the block the
digest names, wherever they came from (`HonestStores`). Decoding them gives that
block back, so what the node records under a digest is read off the header the
digest names (`header_of_records`).
-/

namespace Allegro

open Run Node

section Definitions

variable (A : Alloy)

/-- What the receiver reads from the message is a block under its own hash. -/
def HonestMessage (data : Bytes) : Prop :=
  ∀ d bytes, parseBlockMessage data = some (d, bytes) → A.Encodes bytes d.get

/-- The bytes a node holds for a digest, in either store or under verification,
are the block the digest names. -/
structure HonestStores (n : Node) : Prop where
  pending : ∀ d bytes, n.pendingBlocks.value.lookup d = some bytes → A.Encodes bytes d.get
  received : ∀ d bytes, n.receivedBlocks.value.lookup d = some bytes → A.Encodes bytes d.get
  validating : ∀ msg bytes ph, n.stage = .validating msg bytes ph →
    A.Encodes bytes msg.payload.get

end Definitions

variable {A : Alloy} {n : Node} {e : Node.Event (Reth A)}

theorem honestStores_start (c : Config A) : HonestStores A (Node.start c) where
  pending := fun _ _ h => (nomatch h)
  received := fun _ _ h => (nomatch h)
  validating := fun _ _ _ h => (nomatch h)

theorem honestStores_step (h : HonestStores A n)
    (he : ∀ data, e = .blockMessage data → HonestMessage A data) :
    HonestStores A (n.prodStep A e) where
  pending := by
    intro d bytes hb
    rcases pending_step_cases hb with hold | ⟨_, _, _, _, _, _, _, _, hok, rfl, rfl⟩
    · exact h.pending d bytes hold
    · obtain ⟨block, _, rfl⟩ := buildClosure_ok hok
      exact ⟨block, rfl, rfl⟩
  received := by
    intro d bytes hb
    rcases received_step_cases hb with hold | ⟨data, hdata, hp⟩
    · exact h.received d bytes hold
    · exact he data hdata d bytes hp
  validating := by
    intro msg bytes ph hstage
    rcases validating_step_cases hstage with hold | hold | hold
    · exact h.validating msg bytes ph hold
    · exact h.pending msg.payload bytes hold
    · exact h.received msg.payload bytes hold

/-- What the stores hold under a digest decodes to the block the digest names. -/
theorem Alloy.Encodes.decode (hr : A.RoundTrips) {bytes rest : Bytes} {hash : B256}
    {block : A.Block} (h : A.Encodes bytes hash) (hd : A.decode bytes = .ok (block, rest)) :
    A.hashSlow block.header = hash := by
  obtain ⟨b, rfl, hb⟩ := h
  cases hd.symm.trans (hr b)
  exact hb

/-- The record was read off the header, except for its seconds. -/
def ReadOff (A : Alloy) (h : A.Header) (i : BlockInfo) : Prop :=
  i.number = A.number h ∧ i.hash = A.hashSlow h ∧
    i.timestampMillis = saturatingMul (A.timestamp h) 1000

/-- A record that a node writes under a digest is read off the header the digest
names. The seconds are those of the request for an own block, and those of the
header otherwise. -/
theorem header_of_records (hr : A.RoundTrips) (h : HonestStores A n) {d : Digest} {i : BlockInfo}
    (hrec : Records (createEnginePayloadBuilder A) n e d i) :
    ∃ hdr, A.hashSlow hdr = d.get ∧ ReadOff A hdr i ∧
      (i.timestamp = A.timestamp hdr ∨
        ∃ reth fcs attrs block, e.env = some reth ∧ reth.Job fcs attrs block ∧
          block.header = hdr ∧ i.timestamp = attrs.timestamp) := by
  cases hrec with
  | proposed hstage hanchor hb =>
    obtain ⟨block, hjob, rfl⟩ := buildClosure_ok hb
    exact ⟨block.header, rfl, ⟨rfl, rfl, rfl⟩, .inr ⟨_, _, _, block, rfl, hjob, rfl, rfl⟩⟩
  | verified hstage hv hm =>
    obtain ⟨block, rest, hdec, _, rfl⟩ := validateClosure_valid.mp hv
    exact ⟨block.header, (h.validating _ _ _ hstage).decode hr hdec, ⟨rfl, rfl, rfl⟩, .inl rfl⟩

end Allegro
