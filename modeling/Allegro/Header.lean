import Allegro.Primitives
import Allegro.Lib.Rlp

/-!
# The block header

`crates/primitives/src/header.rs`: alloy's Ethereum header extended with a
millisecond timestamp and the consensus context, and the RLP codecs of the three.

The codec of a context is written by hand. The codec of the header is derived
(`#[rlp(trailing(no_gaps))]`): its list header is taken from `length()` of the
fields, and the decoder compares what it announces with what the fields took.
Alloy's own header `H` and its codec are parameters.
-/

namespace Allegro

open Rlp (Codec)

/-! ## The proposer key -/

/-- `ProposerKey`: a raw ed25519 public key. -/
structure ProposerKey where
  get : Rlp.Fixed 32
deriving DecidableEq

/-- The key with the same byte in all 32 places. -/
def ProposerKey.repeatByte (b : UInt8) : ProposerKey :=
  ⟨(PublicKey.repeatByte b).bytes, (PublicKey.repeatByte b).size⟩

/-- `Encodable` and `Decodable` for `ProposerKey`. Its `length` is that of the raw
bytes; the encoding has one byte more. -/
def ProposerKey.codec : Codec ProposerKey where
  encode key := (Rlp.fixed 32).encode key.get
  length _ := 32
  decode buf := do
    let (arr, buf) ← (Rlp.fixed 32).decode buf
    .ok (⟨arr⟩, buf)

/-! ## The consensus context -/

structure AllegroConsensusContext where
  epoch : UInt64
  view : UInt64
  parentView : UInt64
  proposer : ProposerKey
deriving DecidableEq

namespace AllegroConsensusContext

/-- The four fields, one item each. -/
def payload (ctx : AllegroConsensusContext) : Bytes :=
  Rlp.u64.encode ctx.epoch ++ (Rlp.u64.encode ctx.view ++
    (Rlp.u64.encode ctx.parentView ++ Rlp.encodeBytes ctx.proposer.get.bytes))

def encode (ctx : AllegroConsensusContext) : Bytes :=
  Rlp.Header.encode ⟨true, ctx.payload.length⟩ ++ ctx.payload

def length (ctx : AllegroConsensusContext) : Nat :=
  let pl := ctx.payload.length
  let hdr := if pl ≤ 55 then 1 else if pl ≤ 0xff then 2 else if pl ≤ 0xffff then 3 else 4
  hdr + pl

/-- The part of `decode` behind the list header. -/
def decodeFields (buf : Bytes) : Except Rlp.Error (AllegroConsensusContext × Bytes) := do
  let (epoch, buf) ← Rlp.u64.decode buf
  let (view, buf) ← Rlp.u64.decode buf
  let (parentView, buf) ← Rlp.u64.decode buf
  let (proposer, buf) ← ProposerKey.codec.decode buf
  .ok (⟨epoch, view, parentView, proposer⟩, buf)

-- The payload length of the list header is not looked at again.
def decode (buf : Bytes) : Except Rlp.Error (AllegroConsensusContext × Bytes) := do
  let (header, buf) ← Rlp.Header.decode buf
  if !header.list then .error .unexpectedString
  else decodeFields buf

def codec : Codec AllegroConsensusContext := ⟨encode, length, decode⟩

end AllegroConsensusContext

/-! ## The header -/

structure AllegroHeader (H : Type) where
  inner : H
  timestampMillis : UInt64
  consensusContext : Option AllegroConsensusContext
deriving DecidableEq

namespace AllegroHeader

variable {H : Type}

/-- The payload length of the derived list header: the sum of `length()` of the fields. -/
def payloadLength (inner : Codec H) (header : AllegroHeader H) : Nat :=
  inner.length header.inner + Rlp.u64.length header.timestampMillis +
    (header.consensusContext.map AllegroConsensusContext.length).getD 0

/-- The fields. An absent trailing field takes no bytes. -/
def fields (inner : Codec H) (header : AllegroHeader H) : Bytes :=
  inner.encode header.inner ++ (Rlp.u64.encode header.timestampMillis ++
    (header.consensusContext.map AllegroConsensusContext.encode).getD [])

def encode (inner : Codec H) (header : AllegroHeader H) : Bytes :=
  Rlp.Header.encode ⟨true, payloadLength inner header⟩ ++ fields inner header

def length (inner : Codec H) (header : AllegroHeader H) : Nat :=
  payloadLength inner header + Rlp.lengthOfLength (payloadLength inner header)

/-- A trailing optional field: there if the list is not used up. -/
def decodeContext (startedLen payloadLength : Nat) (buf : Bytes) :
    Except Rlp.Error (Option AllegroConsensusContext × Bytes) :=
  if startedLen - buf.length < payloadLength then do
    let (ctx, buf) ← AllegroConsensusContext.decode buf
    .ok (some ctx, buf)
  else .ok (none, buf)

def decode (inner : Codec H) (buf : Bytes) : Except Rlp.Error (AllegroHeader H × Bytes) := do
  let (header, buf) ← Rlp.Header.decode buf
  if !header.list then .error .unexpectedString
  else
    let startedLen := buf.length
    let (innerHeader, buf) ← inner.decode buf
    let (timestampMillis, buf) ← Rlp.u64.decode buf
    let (consensusContext, buf) ← decodeContext startedLen header.payloadLength buf
    let consumed := startedLen - buf.length
    if consumed ≠ header.payloadLength then
      .error (.listLengthMismatch header.payloadLength consumed)
    else .ok (⟨innerHeader, timestampMillis, consensusContext⟩, buf)

def codec (inner : Codec H) : Codec (AllegroHeader H) :=
  ⟨encode inner, length inner, decode inner⟩

/-- `hash_slow`: the block hash. -/
def hashSlow (keccak256 : Bytes → B256) (inner : Codec H) (header : AllegroHeader H) : B256 :=
  keccak256 (encode inner header)

end AllegroHeader

end Allegro
