import Allegro.HeaderCodec
import Allegro.Lib.RlpList

/-!
# Are the declared lengths exact?

`alloy_rlp` takes a list header from `length()` of the values, so a `length()` that is
not the number of bytes that `encode` writes corrupts every list around it. The
length of a context is computed by hand and exact, and so is that of the header,
which adds up its fields. The length of a `ProposerKey` is 32, the raw bytes; its
encoding has a string header in front of them. A list of keys announces a byte
less than it has for each key, and no list of keys but the empty one is decoded
to itself.

Results:
1. `AllegroHeader.lengthExact`, beside `AllegroConsensusContext.lengthExact`.
2. `declared_lengths_exact_iff`: for which of the three types `length()` is exact, and
   which lists of their values round-trip.
3. `key_length_short`: one key, and 33 keys that are read as 32.
-/

namespace Allegro

open Rlp (Codec)

/-! ## The three types -/

/-- The types of `header.rs` that implement `Encodable` and `Decodable`. -/
inductive HeaderType
  | proposerKey
  | allegroConsensusContext
  | allegroHeader
deriving DecidableEq

namespace HeaderType

/-- The values, over the inner headers `H`. -/
def Value (H : Type) : HeaderType → Type
  | proposerKey => ProposerKey
  | allegroConsensusContext => AllegroConsensusContext
  | allegroHeader => AllegroHeader H

def codec {H : Type} (inner : Codec H) : (t : HeaderType) → Codec (t.Value H)
  | proposerKey => ProposerKey.codec
  | allegroConsensusContext => AllegroConsensusContext.codec
  | allegroHeader => AllegroHeader.codec inner

end HeaderType

theorem AllegroHeader.lengthExact {H : Type} {inner : Codec H} {h : AllegroHeader H}
    (hinner : inner.LengthExact h.inner) : (codec inner).LengthExact h := by
  show payloadLength inner h + Rlp.lengthOfLength (payloadLength inner h) = (encode inner h).length
  rw [encode_eq hinner, encodeWith, List.length_append, Rlp.Header.encode_length,
    fieldsWith_length hinner, Nat.add_comm]

namespace LengthsLemmas

variable {H : Type} {inner : Codec H}

/-! ## Keys -/

theorem itemsLength_keys (keys : List ProposerKey) :
    Rlp.itemsLength ProposerKey.codec keys = keys.length * 32 := by
  show (keys.map fun _ => 32).sum = _
  rw [List.map_const', List.sum_replicate_nat]

theorem items_keys_length (keys : List ProposerKey) :
    (Rlp.items ProposerKey.codec keys).length = keys.length * 33 := by
  have hkeys : ∀ key ∈ keys, (ProposerKey.codec.encode key).length = 33 :=
    fun key _ => ProposerKey.encode_length key
  rw [Rlp.items_length, List.map_congr_left hkeys, List.map_const', List.sum_replicate_nat]

theorem encode_key_ne_nil (key : ProposerKey) : ProposerKey.codec.encode key ≠ [] := by
  intro hnil
  have hlen := ProposerKey.encode_length key
  rw [hnil] at hlen
  cases hlen

/-- No list of keys is decoded to itself but the empty one. -/
theorem keys_roundTrip_iff {keys : List ProposerKey}
    (hfits : (Rlp.encodeList ProposerKey.codec keys).length < 2 ^ 63) :
    Rlp.ListRoundTripsOn ProposerKey.codec keys ↔ keys = [] := by
  have hitems := Rlp.items_length_le ProposerKey.codec keys
  have hsize : Rlp.itemsLength ProposerKey.codec keys < 2 ^ 64 := by
    rw [items_keys_length] at hitems
    rw [itemsLength_keys]
    omega
  rw [Rlp.decodeList_encodeList_iff ProposerKey.canonical (fun key _ => key.roundTrips)
    (fun key _ => encode_key_ne_nil key) hsize, itemsLength_keys, items_keys_length,
    ← List.length_eq_zero_iff]
  omega

/-! ## Contexts and headers -/

/-- Whatever follows it, a list header has a byte. -/
theorem header_append_ne_nil (h : Rlp.Header) (bytes : Bytes) : h.encode ++ bytes ≠ [] :=
  List.append_ne_nil_of_left_ne_nil h.encode_ne_nil bytes

theorem contexts_roundTrip {ctxs : List AllegroConsensusContext}
    (hfits : (Rlp.encodeList AllegroConsensusContext.codec ctxs).length < 2 ^ 63) :
    Rlp.ListRoundTripsOn AllegroConsensusContext.codec ctxs :=
  Rlp.listRoundTripsOn_of_lengthExact (fun ctx _ => ctx.roundTrips)
    (fun _ _ => header_append_ne_nil _ _) (fun ctx _ => ctx.lengthExact)
    (Nat.lt_trans hfits (by decide))

theorem inner_length_le (h : AllegroHeader H) :
    (inner.encode h.inner).length ≤ ((AllegroHeader.codec inner).encode h).length := by
  show _ ≤ (h.encode inner).length
  rw [AllegroHeader.encode, AllegroHeader.fields, List.length_append, List.length_append]
  omega

theorem headers_roundTrip (hround : ∀ x, inner.RoundTripsOn x) (hlen : ∀ x, inner.LengthExact x)
    {hs : List (AllegroHeader H)}
    (hfits : (Rlp.encodeList (AllegroHeader.codec inner) hs).length < 2 ^ 63) :
    Rlp.ListRoundTripsOn (AllegroHeader.codec inner) hs := by
  refine Rlp.listRoundTripsOn_of_lengthExact (fun h hmem => ?_)
    (fun _ _ => header_append_ne_nil _ _) (fun h _ => AllegroHeader.lengthExact (hlen h.inner))
    (Nat.lt_trans hfits (by decide))
  refine AllegroHeader.roundTrips ⟨hround h.inner, hlen h.inner, ?_⟩
  have hitem := Rlp.encode_length_le_of_mem (c := AllegroHeader.codec inner) hmem
  exact Nat.lt_of_le_of_lt (Nat.le_trans (inner_length_le h) hitem) hfits

end LengthsLemmas

open LengthsLemmas

/-- Over a codec of alloy's header that round-trips and has exact lengths. For every
value of the three types, `length()` is the number of bytes that `encode` writes
exactly if it is not a `ProposerKey`. And for every list of such values whose
encoding fits in a buffer, which has at most `isize::MAX` bytes: it is decoded back
to itself, whatever follows it, exactly if it is not a list of keys, or empty. -/
theorem declared_lengths_exact_iff {H : Type} (inner : Codec H)
    (hround : ∀ x, inner.RoundTripsOn x) (hlen : ∀ x, inner.LengthExact x) :
    (∀ (t : HeaderType) (x : t.Value H),
      (t.codec inner).length x = ((t.codec inner).encode x).length ↔ t ≠ .proposerKey) ∧
    (∀ (t : HeaderType) (xs : List (t.Value H)),
      (Rlp.encodeList (t.codec inner) xs).length < 2 ^ 63 →
      (Rlp.ListRoundTripsOn (t.codec inner) xs ↔ (t = .proposerKey → xs = []))) := by
  constructor
  · intro t x
    cases t with
    | proposerKey =>
      have hkey := ProposerKey.encode_length x
      refine ⟨fun hexact => ?_, fun hne => absurd rfl hne⟩
      exact absurd (hexact.trans hkey) (Nat.ne_of_lt (Nat.lt_succ_self _))
    | allegroConsensusContext =>
      exact ⟨fun _ => by decide, fun _ => AllegroConsensusContext.lengthExact x⟩
    | allegroHeader =>
      exact ⟨fun _ => by decide, fun _ => AllegroHeader.lengthExact (hlen _)⟩
  · intro t xs hfits
    cases t with
    | proposerKey =>
      refine (keys_roundTrip_iff hfits).trans ⟨fun hnil _ => hnil, fun h => h rfl⟩
    | allegroConsensusContext =>
      exact ⟨fun _ h => absurd h (by decide), fun _ => contexts_roundTrip hfits⟩
    | allegroHeader =>
      exact ⟨fun _ h => absurd h (by decide), fun _ => headers_roundTrip hround hlen hfits⟩

/-- Two headers in a list, with a context and without. -/
theorem two_headers_round_trip :
    let hs : List (AllegroHeader Unit) := [sampleHeader, ⟨(), 0, none⟩]
    (Rlp.encodeList (AllegroHeader.codec defaultHeaderCodec) hs).length < 2 ^ 63 ∧
      Rlp.ListRoundTripsOn (AllegroHeader.codec defaultHeaderCodec) hs := by
  intro hs
  have hfits : (Rlp.encodeList (AllegroHeader.codec defaultHeaderCodec) hs).length < 2 ^ 63 := by
    decide +kernel
  have hlaw := declared_lengths_exact_iff defaultHeaderCodec
    (fun _ => defaultHeaderCodec_sound.roundTrips) defaultHeaderCodec_lengthExact
  exact ⟨hfits, (hlaw.2 .allegroHeader hs hfits).mpr fun h => absurd h (by decide)⟩

/-- A key says 32 bytes and takes 33. A list of one key cannot be decoded. A list of 33
keys is decoded, to 32 of them. -/
theorem key_length_short :
    let key := ProposerKey.repeatByte 0xab
    (ProposerKey.codec.length key = 32 ∧ (ProposerKey.codec.encode key).length = 33) ∧
      Rlp.decodeList ProposerKey.codec 1 (Rlp.encodeList ProposerKey.codec [key]) =
        some (.error .inputTooShort) ∧
      Rlp.decodeList ProposerKey.codec 33
          (Rlp.encodeList ProposerKey.codec (List.replicate 33 key)) =
        some (.ok (List.replicate 32 key, ProposerKey.codec.encode key)) ∧
      ¬ Rlp.ListRoundTripsOn ProposerKey.codec [key] := by
  intro key
  refine ⟨⟨rfl, by decide⟩, by decide +kernel, by decide +kernel, fun h => ?_⟩
  have hnil : [key] = [] := (keys_roundTrip_iff (by decide)).mp h
  cases hnil

end Allegro
