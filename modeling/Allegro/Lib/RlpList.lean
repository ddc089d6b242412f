import Allegro.Lib.Rlp

/-!
# Lists of RLP items

`encode_list` and `Decodable for Vec<T>` of `alloy_rlp`. The encoder takes the list
header from the sum of `length()` over the values; the decoder takes the payload
that the header announces and reads items until it is used up.

`listRoundTripsOn_of_lengthExact`: a list round-trips if its items do and their
`length()` is exact. `decodeList_encodeList_iff`: over a canonical codec it
round-trips only if the lengths add up.
-/

namespace Rlp

open Fallible (bind_eq_ok)

variable {α : Type}

/-- The items of a list, one behind the other. -/
def items (c : Codec α) (as : List α) : List UInt8 := as.flatMap c.encode

/-- The payload length of a list header, as `rlp_list_header` sums it up. -/
def itemsLength (c : Codec α) (as : List α) : Nat := (as.map c.length).sum

/-- `encode_list`. -/
def encodeList (c : Codec α) (as : List α) : List UInt8 :=
  Header.encode ⟨true, itemsLength c as⟩ ++ items c as

/-- `Header::decode_bytes` of a list: its payload, and what follows it. -/
def decodePayload (buf : List UInt8) : Except Error (List UInt8 × List UInt8) := do
  let (h, rest) ← Header.decode buf
  if !h.list then .error .unexpectedString
  else .ok (rest.take h.payloadLength, rest.drop h.payloadLength)

/-- The loop over the payload. `none`: it has not ended after `fuel` items. -/
def decodeItems (c : Codec α) : Nat → List UInt8 → Option (Except Error (List α))
  | _, [] => some (.ok [])
  | 0, _ :: _ => none
  | fuel + 1, b :: buf =>
    match c.decode (b :: buf) with
    | .error e => some (.error e)
    | .ok (a, rest) => (decodeItems c fuel rest).map fun result => result.map (a :: ·)

/-- `Decodable for Vec<T>`. -/
def decodeList (c : Codec α) (fuel : Nat) (buf : List UInt8) :
    Option (Except Error (List α × List UInt8)) :=
  match decodePayload buf with
  | .error e => some (.error e)
  | .ok (payload, rest) => (decodeItems c fuel payload).map fun result => result.map (·, rest)

/-- The encoding of the list, followed by `rest`, is decoded to the list and leaves `rest`. -/
def ListRoundTripsOn (c : Codec α) (as : List α) : Prop :=
  ∀ rest, ∃ fuel, decodeList c fuel (encodeList c as ++ rest) = some (.ok (as, rest))

variable {c : Codec α} {as : List α}

/-! ## The payload -/

theorem items_cons (c : Codec α) (a : α) (as : List α) :
    items c (a :: as) = c.encode a ++ items c as := List.flatMap_cons

theorem items_length (c : Codec α) (as : List α) :
    (items c as).length = (as.map fun a => (c.encode a).length).sum := List.length_flatMap

/-- Exact lengths add up to the payload. -/
theorem itemsLength_eq (hlen : ∀ a ∈ as, c.LengthExact a) :
    itemsLength c as = (items c as).length := by
  rw [items_length, itemsLength, List.map_congr_left hlen]

theorem items_length_le (c : Codec α) (as : List α) :
    (items c as).length ≤ (encodeList c as).length := by
  rw [encodeList, List.length_append]
  exact Nat.le_add_left _ _

/-- An item is no longer than a list that has it. -/
theorem encode_length_le_of_mem {a : α} (ha : a ∈ as) :
    (c.encode a).length ≤ (encodeList c as).length := by
  refine Nat.le_trans ?_ (items_length_le c as)
  obtain ⟨front, back, rfl⟩ := List.append_of_mem ha
  rw [items, List.flatMap_append, List.flatMap_cons, List.length_append, List.length_append]
  omega

/-- The payload of an encoded list is what its header announces. -/
theorem decodePayload_encodeList (hsize : itemsLength c as < 2 ^ 64) {rest payload rest' : List UInt8} :
    decodePayload (encodeList c as ++ rest) = .ok (payload, rest') ↔
      itemsLength c as ≤ (items c as ++ rest).length ∧
        payload = (items c as ++ rest).take (itemsLength c as) ∧
        rest' = (items c as ++ rest).drop (itemsLength c as) := by
  unfold decodePayload encodeList
  have hread := Header.read_encode true (items c as ++ rest) hsize (fun h => absurd h (by decide))
  rw [List.append_assoc, bind_eq_ok]
  constructor
  · rintro ⟨⟨h, buf⟩, hdecode, hok⟩
    obtain ⟨hread', hle⟩ := Header.decode_eq_ok.mp hdecode
    cases hread.symm.trans hread'
    cases hok
    exact ⟨hle, rfl, rfl⟩
  · rintro ⟨hle, rfl, rfl⟩
    exact ⟨_, Header.decode_eq_ok.mpr ⟨hread, hle⟩, rfl⟩

/-! ## The loop -/

/-- Items that round-trip are read one after the other. -/
theorem decodeItems_items (hround : ∀ a ∈ as, c.RoundTripsOn a)
    (hne : ∀ a ∈ as, c.encode a ≠ []) : decodeItems c as.length (items c as) = some (.ok as) := by
  induction as with
  | nil => rfl
  | cons a as ih =>
    have htail := ih (fun b hb => hround b (List.mem_cons_of_mem a hb))
      (fun b hb => hne b (List.mem_cons_of_mem a hb))
    have hhead := hround a List.mem_cons_self (items c as)
    rw [items_cons, List.length_cons]
    -- the loop goes on, since the first item has a byte
    cases henc : c.encode a with
    | nil => exact absurd henc (hne a List.mem_cons_self)
    | cons b bytes =>
      rw [henc, List.cons_append] at hhead
      rw [List.cons_append, decodeItems, hhead]
      simp only [htail, Option.map_some]
      rfl

/-- Over a canonical codec, what the loop has read is what was there. -/
theorem items_of_decodeItems (hcanon : c.Canonical) {fuel : Nat} {buf : List UInt8}
    (h : decodeItems c fuel buf = some (.ok as)) : buf = items c as := by
  induction fuel generalizing buf as with
  | zero =>
    cases buf with
    | nil =>
      cases h
      rfl
    | cons b buf => cases h
  | succ fuel ih =>
    cases buf with
    | nil =>
      cases h
      rfl
    | cons b buf =>
      rw [decodeItems] at h
      split at h
      · cases h
      · next a rest hdecode =>
        obtain ⟨result, htail, hresult⟩ := Option.map_eq_some_iff.mp h
        cases result with
        | error e => cases hresult
        | ok as' =>
          cases hresult
          rw [items_cons, hcanon _ _ _ hdecode, ih htail]

/-! ## The list -/

theorem decodeList_eq_ok {fuel : Nat} {buf rest : List UInt8} :
    decodeList c fuel buf = some (.ok (as, rest)) ↔
      ∃ payload, decodePayload buf = .ok (payload, rest) ∧
        decodeItems c fuel payload = some (.ok as) := by
  unfold decodeList
  split
  · next e hpayload =>
    constructor
    · intro h
      cases h
    · rintro ⟨payload, hok, -⟩
      cases hpayload.symm.trans hok
  · next payload rest' hpayload =>
    constructor
    · intro h
      obtain ⟨result, hitems, hresult⟩ := Option.map_eq_some_iff.mp h
      cases result with
      | error e => cases hresult
      | ok as' =>
        cases hresult
        exact ⟨payload, hpayload, hitems⟩
    · rintro ⟨payload', hok, hitems⟩
      cases hpayload.symm.trans hok
      rw [hitems]
      rfl

/-- A list round-trips if its items do and their lengths add up to the payload. -/
theorem decodeList_encodeList (hround : ∀ a ∈ as, c.RoundTripsOn a)
    (hne : ∀ a ∈ as, c.encode a ≠ []) (hsize : itemsLength c as < 2 ^ 64)
    (hlen : itemsLength c as = (items c as).length) : ListRoundTripsOn c as := by
  intro rest
  refine ⟨as.length, decodeList_eq_ok.mpr ⟨items c as, ?_, decodeItems_items hround hne⟩⟩
  refine (decodePayload_encodeList hsize).mpr ⟨?_, ?_, ?_⟩
  · rw [hlen, List.length_append]
    exact Nat.le_add_right _ _
  · rw [hlen, List.take_left]
  · rw [hlen, List.drop_left]

/-- Exact lengths do, where the encoding of the list fits in a `usize`. -/
theorem listRoundTripsOn_of_lengthExact (hround : ∀ a ∈ as, c.RoundTripsOn a)
    (hne : ∀ a ∈ as, c.encode a ≠ []) (hlen : ∀ a ∈ as, c.LengthExact a)
    (hfits : (encodeList c as).length < 2 ^ 64) : ListRoundTripsOn c as := by
  have hexact := itemsLength_eq hlen
  have hsize : itemsLength c as < 2 ^ 64 := by
    rw [hexact]
    exact Nat.lt_of_le_of_lt (items_length_le c as) hfits
  exact decodeList_encodeList hround hne hsize hexact

/-- Over a canonical codec, a list round-trips only if the lengths add up. -/
theorem decodeList_encodeList_iff (hcanon : c.Canonical) (hround : ∀ a ∈ as, c.RoundTripsOn a)
    (hne : ∀ a ∈ as, c.encode a ≠ []) (hsize : itemsLength c as < 2 ^ 64) :
    ListRoundTripsOn c as ↔ itemsLength c as = (items c as).length := by
  refine ⟨fun h => ?_, decodeList_encodeList hround hne hsize⟩
  obtain ⟨fuel, hok⟩ := h []
  obtain ⟨payload, hpayload, hitems⟩ := decodeList_eq_ok.mp hok
  obtain ⟨hle, htake, -⟩ := (decodePayload_encodeList hsize).mp hpayload
  rw [items_of_decodeItems hcanon hitems] at htake
  calc itemsLength c as = ((items c as ++ []).take (itemsLength c as)).length :=
        (List.length_take_of_le hle).symm
    _ = (items c as).length := by rw [← htake]

end Rlp
