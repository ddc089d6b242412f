import Allegro.EngineSteps

/-!
# The block on the wire

`crates/consensus/src/block.rs`: the block type and its codec. The same format is
written once more by `BlockRelay::broadcast` and parsed once more by
`spawn_block_receiver`, without shared code.

`wireFormat` is the format itself: 32 bytes of digest, then the block bytes. It
is a bijection between the pairs of a digest and bytes, and the messages of at
least 32 bytes. Each of the four implementations is compared with it.

Results:
1. `Block.write_eq`, `wireMessage_eq`: both writers write the format.
2. `Block.readCfg_eq_ok`, `parseBlockMessage_eq_some`: both parsers invert it.
3. `wire_formats_agree`: so they are one format, from the relay of one node to the
   store of another.
-/

namespace Allegro

/-! ## The block type -/

/-- `Block`: the RLP bytes of a sealed block, with its hash. -/
structure Block where
  inner : Bytes
  hash : B256
deriving DecidableEq

/-- `commonware_codec::Error::Invalid`. -/
inductive CodecError
  | invalid (context message : String)
deriving DecidableEq

theorem take_size {buf : Bytes} (h : ¬ buf.length < 32) : (buf.take 32).length = 32 :=
  List.length_take_of_le (Nat.le_of_not_lt h)

namespace Block

/-- `Digestible::digest` and `Committable::commitment`. -/
def digest (block : Block) : Digest := ⟨block.hash⟩

/-- `EncodeSize::encode_size`. -/
def encodeSize (block : Block) : Nat := 32 + block.inner.length

/-- `Read::read_cfg`, with what is left in the buffer. -/
def readCfg (buf : Bytes) : Except CodecError (Block × Bytes) :=
  if h : buf.length < 32 then .error (.invalid "Block" "buffer too short for hash")
  else
    let hash : B256 := ⟨buf.take 32, take_size h⟩
    let buf := buf.drop 32
    let remaining := buf.length
    .ok (⟨buf.take remaining, hash⟩, buf.drop remaining)

/-- `Write::write`: two `put_slice`s. -/
def write (block : Block) (buf : Bytes) : Bytes :=
  let buf := buf ++ block.hash.bytes
  buf ++ block.inner

end Block

/-! ## The format -/

/-- The wire format: the digest in front, the block bytes behind it. -/
def wireFormat : Digest × Bytes ≃ { m : Bytes // 32 ≤ m.length } where
  toFun p := ⟨p.1.get.bytes ++ p.2, by
    rw [List.length_append, p.1.get.size]
    exact Nat.le_add_right _ _⟩
  invFun m := (⟨⟨m.1.take 32, List.length_take_of_le m.2⟩⟩, m.1.drop 32)
  left_inv p := by
    obtain ⟨⟨bytes, hsize⟩, tail⟩ := p
    simp only [Prod.mk.injEq, Digest.mk.injEq, B256.mk.injEq]
    exact ⟨List.take_left' hsize, List.drop_left' hsize⟩
  right_inv m := Subtype.ext (List.take_append_drop 32 m.1)

theorem wireFormat_length (d : Digest) (b : Bytes) : (wireFormat (d, b)).1.length = 32 + b.length := by
  show (d.get.bytes ++ b).length = _
  rw [List.length_append, d.get.size]

theorem wireMessage_eq (d : Digest) (b : Bytes) : wireMessage d b = (wireFormat (d, b)).1 := rfl

/-- The receiver accepts a message exactly if it is in the format, and reads the pair
that it stands for. -/
theorem parseBlockMessage_eq_some {m : Bytes} {p : Digest × Bytes} :
    parseBlockMessage m = some p ↔ (wireFormat p).1 = m := by
  constructor
  · intro h
    unfold parseBlockMessage at h
    split at h
    · cases h
    · next hlen =>
      cases h
      exact congrArg Subtype.val (wireFormat.apply_symm_apply ⟨m, Nat.le_of_not_lt hlen⟩)
  · rintro rfl
    exact parse_wireMessage p.1 p.2

theorem parseBlockMessage_eq_none {m : Bytes} : parseBlockMessage m = none ↔ m.length < 32 := by
  unfold parseBlockMessage
  split
  · next hlen => exact ⟨fun _ => hlen, fun _ => rfl⟩
  · next hlen => exact ⟨fun h => (nomatch h), fun h => absurd h hlen⟩

namespace Block

theorem write_eq (block : Block) (buf : Bytes) :
    block.write buf = buf ++ (wireFormat (block.digest, block.inner)).1 :=
  List.append_assoc _ _ _

theorem write_length (block : Block) : (block.write []).length = block.encodeSize := by
  rw [write_eq, List.nil_append, wireFormat_length]
  rfl

/-- The codec reads a block exactly from its format, and leaves nothing. -/
theorem readCfg_eq_ok {m rest : Bytes} {block : Block} :
    readCfg m = .ok (block, rest) ↔
      (wireFormat (block.digest, block.inner)).1 = m ∧ rest = [] := by
  constructor
  · intro h
    unfold readCfg at h
    split at h
    · cases h
    · next hlen =>
      cases h
      rw [List.take_length, List.drop_length]
      exact ⟨List.take_append_drop 32 m, rfl⟩
  · rintro ⟨rfl, rfl⟩
    obtain ⟨inner, ⟨bytes, hsize⟩⟩ := block
    have hlen : ¬ (bytes ++ inner).length < 32 := by
      rw [List.length_append, hsize]
      exact Nat.not_lt_of_le (Nat.le_add_right _ _)
    show readCfg (bytes ++ inner) = _
    rw [readCfg, dif_neg hlen]
    simp only [List.take_left' hsize, List.drop_left' hsize, List.take_length, List.drop_length]

theorem readCfg_eq_error {m : Bytes} :
    (∃ e, readCfg m = .error e) ↔ m.length < 32 := by
  unfold readCfg
  split
  · next hlen => exact ⟨fun _ => hlen, fun _ => ⟨_, rfl⟩⟩
  · next hlen => exact ⟨fun ⟨_, h⟩ => (nomatch h), fun h => absurd h hlen⟩

end Block

/-! ## The receiver's store -/

/-- On the message `m` the receiver writes `b` under `d`, and nothing else, whatever
`received_blocks` holds. Under a poisoned lock the write is an error. -/
def ReceiverStores (m : Bytes) (d : Digest) (b : Bytes) : Prop :=
  ∀ a : Actor, (receiveBlock a m).receivedBlocks = a.receivedBlocks.insert d b

/-- The receiver drops the message `m`. -/
def ReceiverRejects (m : Bytes) : Prop := ∀ a : Actor, receiveBlock a m = a

namespace BlockLemmas

variable {m : Bytes} {d : Digest} {b : Bytes}

theorem receivedBlocks_of_parse (h : parseBlockMessage m = some (d, b)) (a : Actor) :
    (receiveBlock a m).receivedBlocks = a.receivedBlocks.insert d b := by
  unfold receiveBlock
  simp only [h]
  split
  · next hl => exact (Lock.modify_of_poisoned hl _).symm
  · rfl

theorem receiveBlock_of_short (h : parseBlockMessage m = none) (a : Actor) :
    receiveBlock a m = a := by
  unfold receiveBlock
  rw [h]

/-- A node that has received nothing. -/
def nothingReceived : Actor := Actor.fresh ∅ none sampleGenesisInfo

theorem receiverStores_iff : ReceiverStores m d b ↔ parseBlockMessage m = some (d, b) := by
  constructor
  · intro h
    -- on an empty store, what is found under `d` is what the message holds
    have hfound : (receiveBlock nothingReceived m).receivedBlocks.value.lookup d = some b := by
      rw [h nothingReceived]
      exact Lock.lookup_insert_self rfl d b
    cases hp : parseBlockMessage m with
    | none =>
      rw [receiveBlock_of_short hp] at hfound
      cases hfound
    | some p =>
      obtain ⟨d', b'⟩ := p
      rw [receivedBlocks_of_parse hp] at hfound
      rcases Lock.lookup_insert_cases hfound with hold | ⟨rfl, rfl⟩
      · cases hold
      · rfl
  · exact receivedBlocks_of_parse

theorem receiverRejects_iff : ReceiverRejects m ↔ m.length < 32 := by
  rw [← parseBlockMessage_eq_none]
  constructor
  · intro h
    cases hp : parseBlockMessage m with
    | none => rfl
    | some p =>
      obtain ⟨d, b⟩ := p
      have hempty := congrArg Actor.receivedBlocks (h nothingReceived)
      rw [receivedBlocks_of_parse hp] at hempty
      have hfound := Lock.lookup_insert_self (l := nothingReceived.receivedBlocks) rfl d b
      rw [hempty] at hfound
      cases hfound
  · exact receiveBlock_of_short

/-- Both parsers read the same block, or none. -/
theorem receiverStores_iff_readCfg :
    ReceiverStores m d b ↔ Block.readCfg m = .ok (⟨b, d.get⟩, []) := by
  rw [receiverStores_iff, parseBlockMessage_eq_some, Block.readCfg_eq_ok]
  exact ⟨fun h => ⟨h, rfl⟩, fun h => h.1⟩

end BlockLemmas

open BlockLemmas Run

/-- The relay, the receiver and the codec of `Block` have one format. What the relay
submits for a block in its store is what `write` writes, of the length that
`encode_size` says. The receiver stores a pair for a message exactly if `read_cfg`
reads that block from it, both reject the messages of less than 32 bytes and no
others, and both writers give back a message that was accepted. So a node that
receives a broadcast, in any state it can reach, then holds the block bytes
under the digest, and otherwise what it held before. -/
theorem wire_formats_agree :
    (∀ (a : Actor) (d : Digest) (b : Bytes) (plan : Plan) (transport : Transport),
      a.pendingBlocks.poisoned = false → a.pendingBlocks.value.lookup d = some b →
      transport.check plan.recipients = true →
      (BlockRelay.broadcast a d plan transport).map Prod.snd =
        some (some ⟨plan.recipients, (Block.mk b d.get).write []⟩)) ∧
    (∀ d b, wireMessage d b = (Block.mk b d.get).write [] ∧
      (wireMessage d b).length = (Block.mk b d.get).encodeSize) ∧
    (∀ m d b, ReceiverStores m d b ↔ Block.readCfg m = .ok (⟨b, d.get⟩, [])) ∧
    (∀ m, (ReceiverRejects m ↔ m.length < 32) ∧
      ((∃ e, Block.readCfg m = .error e) ↔ m.length < 32)) ∧
    (∀ m block rest, Block.readCfg m = .ok (block, rest) →
      rest = [] ∧ block.write [] = m ∧ wireMessage block.digest block.inner = m) ∧
    (∀ validators metrics g es d b,
      let s := run App.step (App.new validators metrics g) es
      let s' := s.step (.blockMessage (wireMessage d b))
      s'.receivedBlocks.value.lookup d = some b ∧
        ∀ d', d' ≠ d → s'.receivedBlocks.value.lookup d' = s.receivedBlocks.value.lookup d') := by
  refine ⟨fun a d b plan transport hl hb hcheck => ?_, fun d b => ⟨?_, ?_⟩,
    fun m d b => receiverStores_iff_readCfg, fun m => ⟨receiverRejects_iff, Block.readCfg_eq_error⟩,
    fun m block rest hread => ?_, fun validators metrics g es d b => ?_⟩
  · exact Actor.broadcast_pending hl hb hcheck
  · rw [wireMessage_eq, Block.write_eq, List.nil_append]
    rfl
  · exact Block.write_length ⟨b, d.get⟩
  · obtain ⟨hm, hrest⟩ := Block.readCfg_eq_ok.mp hread
    refine ⟨hrest, ?_, hm⟩
    rw [Block.write_eq]
    exact hm
  · intro s s'
    have hl : s.Healthy := App.healthy_run validators metrics g es
    have hstored : s'.receivedBlocks = s.receivedBlocks.insert d b :=
      receivedBlocks_of_parse (parse_wireMessage d b) s.toActor
    rw [hstored]
    exact ⟨Lock.lookup_insert_self hl.receivedBlocks d b,
      fun d' hne => Lock.lookup_insert_ne s.receivedBlocks hne b⟩

/-- Block `one` in the store of its proposer, and a block with no bytes at all, at the
boundary of the format. -/
theorem sample_blocks_on_the_wire :
    let a : Actor := { Actor.fresh sampleValidators none sampleGenesisInfo with
      pendingBlocks := (Lock.new ∅).insert SampleHeader.one.digest [2] }
    (BlockRelay.broadcast a SampleHeader.one.digest (.propose ⟨0, 1⟩)
      ⟨fun _ => true, true⟩).map Prod.snd =
        some (some ⟨.all, (Block.mk [2] SampleHeader.one.hash).write []⟩) ∧
      ReceiverStores (List.replicate 32 0) .EMPTY [] ∧ ReceiverRejects (List.replicate 31 0) ∧
      (Block.mk [] B256.ZERO).write [] = List.replicate 32 0 := by
  intro a
  obtain ⟨hrelay, -, hstores, hrejects, hback, -⟩ := wire_formats_agree
  refine ⟨?_, (hstores _ _ _).mpr rfl, (hrejects _).1.mpr (by decide), ?_⟩
  · exact hrelay a SampleHeader.one.digest [2] (.propose ⟨0, 1⟩) ⟨fun _ => true, true⟩ rfl
      (Lock.lookup_insert_self rfl _ _) rfl
  · exact (hback (List.replicate 32 0) ⟨[], B256.ZERO⟩ [] rfl).2.1

end Allegro
