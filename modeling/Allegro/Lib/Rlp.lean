import Mathlib.Data.List.Basic
import Mathlib.Data.UInt
import Allegro.Lib.Fallible

/-!
# Canonical RLP

The recursive length prefix format, at the level of `alloy_rlp`: big-endian
numbers without leading zeros, item headers, byte strings, `u64` and fixed-size
byte arrays. A decoder consumes a prefix of its input and returns the rest.

A codec is judged by two laws. `Codec.RoundTripsOn`: what is encoded, followed by
anything, is decoded and leaves what follows. `Codec.Canonical`: only encodings
are accepted. The `u64` and fixed-array codecs have both, and `length` of each is
the length of its encoding.
-/

namespace Rlp

open Fallible (bind_eq_ok)

/-- The errors of `alloy_rlp::Error`. -/
inductive Error
  | overflow
  | leadingZero
  | inputTooShort
  | nonCanonicalSingleByte
  | nonCanonicalSize
  | unexpectedLength
  | unexpectedString
  | unexpectedList
  | listLengthMismatch (expected got : Nat)
deriving DecidableEq, Repr

/-- `Encodable` and `Decodable` of one type. -/
structure Codec (α : Type) where
  encode : α → List UInt8
  length : α → Nat
  decode : List UInt8 → Except Error (α × List UInt8)

namespace Codec

variable {α : Type}

/-- The encoding of `a` decodes to `a`, whatever follows it. -/
def RoundTripsOn (c : Codec α) (a : α) : Prop :=
  ∀ rest, c.decode (c.encode a ++ rest) = .ok (a, rest)

/-- If `buf` is accepted, it starts with the encoding of what it is decoded to. -/
def CanonicalAt (c : Codec α) (buf : List UInt8) : Prop :=
  ∀ a rest, c.decode buf = .ok (a, rest) → buf = c.encode a ++ rest

/-- Only encodings are accepted. -/
def Canonical (c : Codec α) : Prop := ∀ buf, c.CanonicalAt buf

/-- `length` is the length of the encoding. -/
def LengthExact (c : Codec α) (a : α) : Prop := c.length a = (c.encode a).length

end Codec

/-! ## Big-endian numbers -/

/-- The last `fuel` big-endian bytes of `n`, without leading zeros. -/
def bigEndian : Nat → Nat → List UInt8
  | 0, _ => []
  | fuel + 1, n => if n = 0 then [] else bigEndian fuel (n / 256) ++ [UInt8.ofNat (n % 256)]

/-- The big-endian bytes of a 64-bit number, without leading zeros. -/
def trimmed (n : Nat) : List UInt8 := bigEndian 8 n

/-- The number with the given big-endian bytes. -/
def ofBigEndian (bytes : List UInt8) : Nat := bytes.foldl (fun acc b => acc * 256 + b.toNat) 0

theorem ofBigEndian_concat (bytes : List UInt8) (b : UInt8) :
    ofBigEndian (bytes ++ [b]) = ofBigEndian bytes * 256 + b.toNat := by
  rw [ofBigEndian, List.foldl_append]
  rfl

theorem ofBigEndian_bigEndian {fuel n : Nat} (h : n < 256 ^ fuel) :
    ofBigEndian (bigEndian fuel n) = n := by
  induction fuel generalizing n with
  | zero =>
    have hn : n = 0 := by simpa using h
    rw [hn]
    rfl
  | succ fuel ih =>
    rw [bigEndian]
    split
    · next hn => exact hn.symm
    · have hdiv : n / 256 < 256 ^ fuel := by
        rw [Nat.div_lt_iff_lt_mul (by decide), ← Nat.pow_succ]
        exact h
      rw [ofBigEndian_concat, ih hdiv, UInt8.toNat_ofNat']
      omega

theorem bigEndian_length_le (fuel n : Nat) : (bigEndian fuel n).length ≤ fuel := by
  induction fuel generalizing n with
  | zero => exact Nat.le_refl _
  | succ fuel ih =>
    rw [bigEndian]
    split
    · exact Nat.zero_le _
    · rw [List.length_append]
      exact Nat.succ_le_succ (ih (n / 256))

theorem bigEndian_length_mono (fuel : Nat) {n m : Nat} (h : n ≤ m) :
    (bigEndian fuel n).length ≤ (bigEndian fuel m).length := by
  induction fuel generalizing n m with
  | zero => exact Nat.le_refl _
  | succ fuel ih =>
    rw [bigEndian, bigEndian]
    split
    · exact Nat.zero_le _
    · next hn =>
      have hm : m ≠ 0 := fun hm => hn (Nat.le_zero.mp (hm ▸ h))
      rw [if_neg hm, List.length_append, List.length_append]
      exact Nat.succ_le_succ (ih (Nat.div_le_div_right h))

/-- There are no leading zeros. -/
theorem bigEndian_head_ne_zero {fuel n : Nat} (h : n < 256 ^ fuel) :
    (bigEndian fuel n).head? ≠ some 0 := by
  induction fuel generalizing n with
  | zero => simp [bigEndian]
  | succ fuel ih =>
    rw [bigEndian]
    split
    · simp
    · next hn =>
      have hdiv : n / 256 < 256 ^ fuel := by
        rw [Nat.div_lt_iff_lt_mul (by decide), ← Nat.pow_succ]
        exact h
      have hval := ofBigEndian_bigEndian hdiv
      have hhead := ih hdiv
      cases hb : bigEndian fuel (n / 256) with
      | cons b bytes =>
        rw [hb] at hhead
        simpa using hhead
      | nil =>
        -- nothing above the last byte, so the last byte is the whole number
        rw [hb] at hval
        have hsmall : n / 256 = 0 := hval.symm
        simp only [List.nil_append, List.head?_cons, ne_eq, Option.some.injEq]
        intro hzero
        have hmod : n % 256 = 0 := by
          have := congrArg UInt8.toNat hzero
          rw [UInt8.toNat_ofNat'] at this
          simpa using this
        omega

/-- Bytes without a leading zero are not the number zero. -/
theorem ofBigEndian_pos {bytes : List UInt8} (hne : bytes ≠ []) (hhead : bytes.head? ≠ some 0) :
    0 < ofBigEndian bytes := by
  induction bytes using List.reverseRecOn with
  | nil => exact absurd rfl hne
  | append_singleton bytes b ih =>
    rw [ofBigEndian_concat]
    cases bytes with
    | nil =>
      have hb : b ≠ 0 := by simpa using hhead
      have hpos : b.toNat ≠ 0 := fun h => hb (UInt8.toNat_inj.mp h)
      omega
    | cons c bytes =>
      have hpos := ih (List.cons_ne_nil _ _) (by simpa using hhead)
      omega

theorem bigEndian_ofBigEndian {fuel : Nat} {bytes : List UInt8} (hlen : bytes.length ≤ fuel)
    (hhead : bytes.head? ≠ some 0) : bigEndian fuel (ofBigEndian bytes) = bytes := by
  induction fuel generalizing bytes with
  | zero =>
    rw [List.eq_nil_of_length_eq_zero (Nat.le_zero.mp hlen)]
    rfl
  | succ fuel ih =>
    cases bytes using List.reverseRecOn with
    | nil => rfl
    | append_singleton bytes b =>
      have hpos := ofBigEndian_pos (by simp) hhead
      have hb := b.toNat_lt
      rw [ofBigEndian_concat] at hpos ⊢
      rw [bigEndian, if_neg (by omega)]
      have hdiv : (ofBigEndian bytes * 256 + b.toNat) / 256 = ofBigEndian bytes := by omega
      have hmod : (ofBigEndian bytes * 256 + b.toNat) % 256 = b.toNat := by omega
      rw [hdiv, hmod, UInt8.ofNat_toNat, ih]
      · rw [List.length_append] at hlen
        exact Nat.le_of_succ_le_succ hlen
      · cases bytes with
        | nil => simp
        | cons c bytes => simpa using hhead

theorem ofBigEndian_lt {fuel : Nat} {bytes : List UInt8} (hlen : bytes.length ≤ fuel) :
    ofBigEndian bytes < 256 ^ fuel := by
  induction fuel generalizing bytes with
  | zero =>
    rw [List.eq_nil_of_length_eq_zero (Nat.le_zero.mp hlen)]
    decide
  | succ fuel ih =>
    cases bytes using List.reverseRecOn with
    | nil => exact Nat.pow_pos (by decide)
    | append_singleton bytes b =>
      rw [List.length_append] at hlen
      have hlt : ofBigEndian bytes < 256 ^ fuel := ih (Nat.le_of_succ_le_succ hlen)
      have hb := b.toNat_lt
      rw [ofBigEndian_concat, Nat.pow_succ]
      omega

/-! ## Item headers -/

/-- `alloy_rlp::Header`. -/
structure Header where
  list : Bool
  payloadLength : Nat
deriving DecidableEq, Repr

/-- The first byte of an empty item: `EMPTY_LIST_CODE` or `EMPTY_STRING_CODE`. -/
def shortCode (list : Bool) : Nat := if list then 0xC0 else 0x80

@[simp] theorem shortCode_true : shortCode true = 0xC0 := rfl
@[simp] theorem shortCode_false : shortCode false = 0x80 := rfl

/-- The first byte of a long item, less the number of bytes of its length. -/
def longCode (list : Bool) : Nat := if list then 0xF7 else 0xB7

@[simp] theorem longCode_true : longCode true = 0xF7 := rfl
@[simp] theorem longCode_false : longCode false = 0xB7 := rfl

/-- `Header::encode`. -/
def Header.encode (h : Header) : List UInt8 :=
  if h.payloadLength < 56 then [UInt8.ofNat (shortCode h.list + h.payloadLength)]
  else UInt8.ofNat (longCode h.list + (trimmed h.payloadLength).length) :: trimmed h.payloadLength

/-- `length_of_length`: the length of the header of a payload of `n` bytes. -/
def lengthOfLength (n : Nat) : Nat := if n < 56 then 1 else 1 + (trimmed n).length

/-- `static_left_pad` into eight bytes, as a number. -/
def staticLeftPad (bytes : List UInt8) : Except Error Nat :=
  if 8 < bytes.length then .error .overflow
  else if bytes.head? = some 0 then .error .leadingZero
  else .ok (ofBigEndian bytes)

/-- A string of `n` bytes with a one-byte header. A single byte needs one only from `0x80` on. -/
def readShort (n : Nat) (buf : List UInt8) : Except Error (Header × List UInt8) :=
  if n = 1 then
    match buf with
    | [] => .error .inputTooShort
    | b :: _ =>
      if b.toNat < 0x80 then .error .nonCanonicalSingleByte else .ok (⟨false, n⟩, buf)
  else .ok (⟨false, n⟩, buf)

/-- The payload length of a long item, in the next `lenOfLen` bytes. -/
def readLength (list : Bool) (lenOfLen : Nat) (buf : List UInt8) :
    Except Error (Header × List UInt8) :=
  if buf.length < lenOfLen then .error .inputTooShort
  else do
    let n ← staticLeftPad (buf.take lenOfLen)
    if n < 56 then .error .nonCanonicalSize else .ok (⟨list, n⟩, buf.drop lenOfLen)

/-- The header of the first item. A byte below `0x80` is its own payload and is left in place. -/
def Header.read : List UInt8 → Except Error (Header × List UInt8)
  | [] => .error .inputTooShort
  | b :: rest =>
    if b.toNat < 0x80 then .ok (⟨false, 1⟩, b :: rest)
    else if b.toNat < 0xB8 then readShort (b.toNat - 0x80) rest
    else if b.toNat < 0xC0 then readLength false (b.toNat - 0xB7) rest
    else if b.toNat < 0xF8 then .ok (⟨true, b.toNat - 0xC0⟩, rest)
    else readLength true (b.toNat - 0xF7) rest

/-- `Header::decode`: the payload has to be there. -/
def Header.decode (buf : List UInt8) : Except Error (Header × List UInt8) := do
  let (h, rest) ← Header.read buf
  if rest.length < h.payloadLength then .error .inputTooShort else .ok (h, rest)

theorem staticLeftPad_eq_ok {bytes : List UInt8} {n : Nat} :
    staticLeftPad bytes = .ok n ↔
      bytes.length ≤ 8 ∧ bytes.head? ≠ some 0 ∧ ofBigEndian bytes = n := by
  unfold staticLeftPad
  split
  · next h => exact ⟨fun hn => (nomatch hn), fun hn => absurd hn.1 (Nat.not_le_of_lt h)⟩
  · next h =>
    split
    · next hz => exact ⟨fun hn => (nomatch hn), fun hn => absurd hz hn.2.1⟩
    · next hz =>
      refine ⟨fun hn => ⟨Nat.le_of_not_lt h, hz, Except.ok.inj hn⟩, fun hn => ?_⟩
      rw [hn.2.2]

theorem staticLeftPad_trimmed {n : Nat} (h : n < 2 ^ 64) : staticLeftPad (trimmed n) = .ok n :=
  staticLeftPad_eq_ok.mpr
    ⟨bigEndian_length_le 8 n, bigEndian_head_ne_zero h, ofBigEndian_bigEndian h⟩

theorem trimmed_of_staticLeftPad {bytes : List UInt8} {n : Nat} (h : staticLeftPad bytes = .ok n) :
    trimmed n = bytes ∧ n < 2 ^ 64 := by
  obtain ⟨hlen, hhead, rfl⟩ := staticLeftPad_eq_ok.mp h
  exact ⟨bigEndian_ofBigEndian hlen hhead, ofBigEndian_lt hlen⟩

theorem trimmed_length_pos {n : Nat} (hpos : 0 < n) (h : n < 2 ^ 64) : 0 < (trimmed n).length := by
  have hval : ofBigEndian (trimmed n) = n := ofBigEndian_bigEndian h
  cases hb : trimmed n with
  | nil =>
    rw [hb] at hval
    exact absurd hval (Nat.ne_of_lt hpos)
  | cons b bytes => exact Nat.succ_pos _

theorem Header.encode_length (h : Header) : h.encode.length = lengthOfLength h.payloadLength := by
  unfold Header.encode lengthOfLength
  split
  · rfl
  · rw [List.length_cons, Nat.add_comm]

theorem Header.encode_ne_nil (h : Header) : h.encode ≠ [] := by
  unfold Header.encode
  split
  · exact List.cons_ne_nil _ _
  · exact List.cons_ne_nil _ _

theorem readLength_trimmed (list : Bool) {n : Nat} (hlong : 56 ≤ n) (h : n < 2 ^ 64)
    (rest : List UInt8) :
    readLength list (trimmed n).length (trimmed n ++ rest) = .ok (⟨list, n⟩, rest) := by
  unfold readLength
  rw [if_neg (by rw [List.length_append]; omega), List.take_left, List.drop_left,
    staticLeftPad_trimmed h]
  exact if_neg (Nat.not_lt_of_le hlong)

/-- The encoding of a short header. -/
theorem Header.encode_short (list : Bool) {n : Nat} (h : n < 56) :
    Header.encode ⟨list, n⟩ = [UInt8.ofNat (shortCode list + n)] := if_pos h

/-- The encoding of a long header. -/
theorem Header.encode_long (list : Bool) {n : Nat} (h : 56 ≤ n) :
    Header.encode ⟨list, n⟩ = UInt8.ofNat (longCode list + (trimmed n).length) :: trimmed n :=
  if_neg (Nat.not_lt_of_le h)

theorem shortByte_toNat (list : Bool) {n : Nat} (h : n < 56) :
    (UInt8.ofNat (shortCode list + n)).toNat = shortCode list + n := by
  apply UInt8.toNat_ofNat_of_lt'
  show shortCode list + n < 256
  cases list with
  | true =>
    rw [shortCode_true]
    omega
  | false =>
    rw [shortCode_false]
    omega

theorem longByte_toNat (list : Bool) (n : Nat) :
    (UInt8.ofNat (longCode list + (trimmed n).length)).toNat =
      longCode list + (trimmed n).length := by
  have hle : (trimmed n).length ≤ 8 := bigEndian_length_le 8 n
  apply UInt8.toNat_ofNat_of_lt'
  show longCode list + (trimmed n).length < 256
  cases list with
  | true =>
    rw [longCode_true]
    omega
  | false =>
    rw [longCode_false]
    omega

/-- A first byte determines a short header. -/
theorem Header.encode_of_shortByte (list : Bool) {b : UInt8} (hlow : shortCode list ≤ b.toNat)
    (hhigh : b.toNat < shortCode list + 56) :
    Header.encode ⟨list, b.toNat - shortCode list⟩ = [b] := by
  rw [Header.encode_short list (by omega), Nat.add_sub_cancel' hlow, UInt8.ofNat_toNat]

/-- A first byte and the bytes of the length determine a long header. -/
theorem Header.encode_of_longByte (list : Bool) {b : UInt8} {n : Nat} (hlow : longCode list ≤ b.toNat)
    (hlong : 56 ≤ n) (hlen : (trimmed n).length = b.toNat - longCode list) :
    Header.encode ⟨list, n⟩ = b :: trimmed n := by
  rw [Header.encode_long list hlong, hlen, Nat.add_sub_cancel' hlow, UInt8.ofNat_toNat]

theorem readShort_ok {n : Nat} {buf : List UInt8}
    (hsingle : n = 1 → ∃ b tail, buf = b :: tail ∧ 0x80 ≤ b.toNat) :
    readShort n buf = .ok (⟨false, n⟩, buf) := by
  unfold readShort
  split
  · next hone =>
    obtain ⟨b, tail, rfl, hbig⟩ := hsingle hone
    exact if_neg (Nat.not_lt_of_le hbig)
  · rfl

/-- A header is read back from its encoding. The one exception is the header of a
single byte below `0x80`, which has none. -/
theorem Header.read_encode (list : Bool) {n : Nat} (rest : List UInt8) (hsize : n < 2 ^ 64)
    (hsingle : list = false → n = 1 → ∃ b tail, rest = b :: tail ∧ 0x80 ≤ b.toNat) :
    Header.read (Header.encode ⟨list, n⟩ ++ rest) = .ok (⟨list, n⟩, rest) := by
  by_cases hshort : n < 56
  · rw [Header.encode_short list hshort, List.singleton_append, Header.read,
      shortByte_toNat list hshort]
    cases list with
    | true =>
      rw [shortCode_true, if_neg (by omega), if_neg (by omega), if_neg (by omega),
        if_pos (by omega), Nat.add_sub_cancel_left]
    | false =>
      rw [shortCode_false, if_neg (by omega), if_pos (by omega), Nat.add_sub_cancel_left]
      exact readShort_ok (hsingle rfl)
  · have hlong : 56 ≤ n := Nat.le_of_not_lt hshort
    have hpos := trimmed_length_pos (by omega) hsize
    have hle : (trimmed n).length ≤ 8 := bigEndian_length_le 8 n
    rw [Header.encode_long list hlong, List.cons_append, Header.read, longByte_toNat list n]
    cases list with
    | true =>
      rw [longCode_true, if_neg (by omega), if_neg (by omega), if_neg (by omega),
        if_neg (by omega), Nat.add_sub_cancel_left]
      exact readLength_trimmed true hlong hsize rest
    | false =>
      rw [longCode_false, if_neg (by omega), if_neg (by omega), if_pos (by omega),
        Nat.add_sub_cancel_left]
      exact readLength_trimmed false hlong hsize rest

theorem readShort_eq_ok {n : Nat} {buf rest : List UInt8} {h : Header}
    (hok : readShort n buf = .ok (h, rest)) :
    h = ⟨false, n⟩ ∧ rest = buf ∧ (n = 1 → ∃ b tail, buf = b :: tail ∧ 0x80 ≤ b.toNat) := by
  unfold readShort at hok
  split at hok
  · next hone =>
    split at hok
    · exact nomatch hok
    · next b tail =>
      split at hok
      · exact nomatch hok
      · next hbig =>
        cases hok
        exact ⟨rfl, rfl, fun _ => ⟨b, tail, rfl, Nat.le_of_not_lt hbig⟩⟩
  · next hone =>
    cases hok
    exact ⟨rfl, rfl, fun h => absurd h hone⟩

theorem readLength_eq_ok {list : Bool} {lenOfLen : Nat} {buf rest : List UInt8} {h : Header}
    (hok : readLength list lenOfLen buf = .ok (h, rest)) :
    ∃ n, h = ⟨list, n⟩ ∧ 56 ≤ n ∧ n < 2 ^ 64 ∧ (trimmed n).length = lenOfLen ∧
      buf = trimmed n ++ rest := by
  unfold readLength at hok
  split at hok
  · exact nomatch hok
  · next hlen =>
    obtain ⟨n, hn, hok⟩ := bind_eq_ok.mp hok
    obtain ⟨htrim, hlt⟩ := trimmed_of_staticLeftPad hn
    split at hok
    · exact nomatch hok
    · next hlong =>
      cases hok
      refine ⟨n, rfl, Nat.le_of_not_lt hlong, hlt, ?_, ?_⟩
      · rw [htrim, List.length_take, Nat.min_eq_left (Nat.le_of_not_lt hlen)]
      · rw [htrim, List.take_append_drop]

/-- What `Header::decode` reads is the header's encoding, or no byte at all in front of a
single byte below `0x80`. -/
theorem Header.read_eq_ok {buf rest : List UInt8} {h : Header}
    (hok : Header.read buf = .ok (h, rest)) :
    (buf = h.encode ++ rest ∧ h.payloadLength < 2 ^ 64 ∧
      (h = ⟨false, 1⟩ → ∃ b tail, rest = b :: tail ∧ 0x80 ≤ b.toNat)) ∨
    (h = ⟨false, 1⟩ ∧ buf = rest ∧ ∃ b tail, rest = b :: tail ∧ b.toNat < 0x80) := by
  cases buf with
  | nil => exact nomatch hok
  | cons b tail =>
    have hb := b.toNat_lt
    rw [Header.read] at hok
    split at hok
    · next hsingle =>
      cases hok
      exact .inr ⟨rfl, rfl, b, tail, rfl, hsingle⟩
    · next h80 =>
      left
      split at hok
      · next hB8 =>
        obtain ⟨rfl, rfl, hone⟩ := readShort_eq_ok hok
        have henc := Header.encode_of_shortByte false (Nat.le_of_not_lt h80) hB8
        have hsize : b.toNat - 0x80 < 2 ^ 64 := by omega
        exact ⟨(congrArg (· ++ rest) henc).symm, hsize, fun h => hone (Header.mk.inj h).2⟩
      · next hB8 =>
        split at hok
        · next hC0 =>
          obtain ⟨n, rfl, hlong, hsize, hlen, rfl⟩ := readLength_eq_ok hok
          have hlow : 0xB7 ≤ b.toNat := by omega
          have henc := Header.encode_of_longByte false hlow hlong hlen
          refine ⟨(congrArg (· ++ rest) henc).symm, hsize, fun h => ?_⟩
          have hn : n = 1 := (Header.mk.inj h).2
          omega
        · next hC0 =>
          split at hok
          · next hF8 =>
            cases hok
            have henc := Header.encode_of_shortByte true (Nat.le_of_not_lt hC0) hF8
            have hsize : b.toNat - 0xC0 < 2 ^ 64 := by omega
            exact ⟨(congrArg (· ++ rest) henc).symm, hsize, fun h => nomatch (Header.mk.inj h).1⟩
          · next hF8 =>
            obtain ⟨n, rfl, hlong, hsize, hlen, rfl⟩ := readLength_eq_ok hok
            have hlow : 0xF7 ≤ b.toNat := by omega
            have henc := Header.encode_of_longByte true hlow hlong hlen
            exact ⟨(congrArg (· ++ rest) henc).symm, hsize, fun h => nomatch (Header.mk.inj h).1⟩

theorem Header.decode_eq_ok {buf rest : List UInt8} {h : Header} :
    Header.decode buf = .ok (h, rest) ↔
      Header.read buf = .ok (h, rest) ∧ h.payloadLength ≤ rest.length := by
  unfold Header.decode
  rw [bind_eq_ok]
  constructor
  · rintro ⟨⟨h', rest'⟩, hread, hok⟩
    simp only at hok
    split at hok
    · exact nomatch hok
    · next hlen =>
      cases hok
      exact ⟨hread, Nat.le_of_not_lt hlen⟩
  · rintro ⟨hread, hlen⟩
    exact ⟨(h, rest), hread, if_neg (Nat.not_lt_of_le hlen)⟩

/-- A list header is decoded from its encoding, and leaves the payload. -/
theorem Header.decode_encode_list {n : Nat} (rest : List UInt8) (hsize : n < 2 ^ 64)
    (hlen : n ≤ rest.length) :
    Header.decode (Header.encode ⟨true, n⟩ ++ rest) = .ok (⟨true, n⟩, rest) :=
  Header.decode_eq_ok.mpr ⟨Header.read_encode true rest hsize (fun h => nomatch h), hlen⟩

/-- Only the encoding of a list header is decoded to one. -/
theorem Header.decode_list_canonical {buf rest : List UInt8} {h : Header}
    (hok : Header.decode buf = .ok (h, rest)) (hlist : h.list = true) :
    buf = h.encode ++ rest ∧ h.payloadLength < 2 ^ 64 ∧ h.payloadLength ≤ rest.length := by
  obtain ⟨hread, hlen⟩ := Header.decode_eq_ok.mp hok
  obtain ⟨hbuf, hsize, -⟩ | ⟨rfl, -, -⟩ := Header.read_eq_ok hread
  · exact ⟨hbuf, hsize, hlen⟩
  · exact nomatch hlist

/-- Two list headers in front of the same bytes are the same header. -/
theorem Header.encode_list_inj {n m : Nat} {rest : List UInt8} (hn : n < 2 ^ 64) (hm : m < 2 ^ 64)
    (heq : Header.encode ⟨true, n⟩ ++ rest = Header.encode ⟨true, m⟩ ++ rest) : n = m := by
  have hread := Header.read_encode true rest hn (fun h => nomatch h)
  rw [heq, Header.read_encode true rest hm (fun h => nomatch h)] at hread
  cases hread
  rfl

theorem lengthOfLength_mono {n m : Nat} (h : n ≤ m) : lengthOfLength n ≤ lengthOfLength m := by
  have hmono : (trimmed n).length ≤ (trimmed m).length := bigEndian_length_mono 8 h
  unfold lengthOfLength
  split <;> split <;> omega

/-- The length of an item determines the length of its payload. -/
theorem lengthOfLength_add_inj {n m : Nat}
    (heq : lengthOfLength n + n = lengthOfLength m + m) : n = m := by
  obtain hlt | rfl | hlt := Nat.lt_trichotomy n m
  · have hmono := lengthOfLength_mono (Nat.le_of_lt hlt)
    omega
  · rfl
  · have hmono := lengthOfLength_mono (Nat.le_of_lt hlt)
    omega

/-! ## Byte strings -/

/-- A byte below `0x80` is its own encoding. -/
def selfEncoded : List UInt8 → Bool
  | [b] => b.toNat < 0x80
  | _ => false

/-- `Encodable for [u8]`. -/
def encodeBytes (bytes : List UInt8) : List UInt8 :=
  if selfEncoded bytes then bytes else Header.encode ⟨false, bytes.length⟩ ++ bytes

/-- `Header::decode_bytes` of a string. -/
def decodeBytes (buf : List UInt8) : Except Error (List UInt8 × List UInt8) := do
  let (h, rest) ← Header.decode buf
  if h.list then .error .unexpectedList
  else .ok (rest.take h.payloadLength, rest.drop h.payloadLength)

theorem selfEncoded_eq_true {bytes : List UInt8} :
    selfEncoded bytes = true ↔ ∃ b, bytes = [b] ∧ b.toNat < 0x80 := by
  cases bytes with
  | nil => simp [selfEncoded]
  | cons b tail =>
    cases tail with
    | nil => simp [selfEncoded]
    | cons c tail => simp [selfEncoded]

theorem decodeBytes_encodeBytes {bytes : List UInt8} (hsize : bytes.length < 2 ^ 64)
    (rest : List UInt8) : decodeBytes (encodeBytes bytes ++ rest) = .ok (bytes, rest) := by
  unfold encodeBytes decodeBytes
  split
  · next hself =>
    obtain ⟨b, rfl, hb⟩ := selfEncoded_eq_true.mp hself
    have hread : Header.decode (b :: rest) = .ok (⟨false, 1⟩, b :: rest) :=
      Header.decode_eq_ok.mpr ⟨if_pos hb, Nat.succ_le_succ (Nat.zero_le _)⟩
    rw [List.singleton_append, hread]
    rfl
  · next hself =>
    have hread : Header.decode (Header.encode ⟨false, bytes.length⟩ ++ (bytes ++ rest)) =
        .ok (⟨false, bytes.length⟩, bytes ++ rest) := by
      refine Header.decode_eq_ok.mpr ⟨Header.read_encode false _ hsize fun _ hone => ?_, ?_⟩
      · obtain ⟨b, rfl⟩ := List.length_eq_one_iff.mp hone
        refine ⟨b, rest, rfl, Nat.le_of_not_lt fun hb => ?_⟩
        exact hself (selfEncoded_eq_true.mpr ⟨b, rfl, hb⟩)
      · rw [List.length_append]
        exact Nat.le_add_right _ _
    rw [List.append_assoc, hread]
    show Except.ok ((bytes ++ rest).take bytes.length, (bytes ++ rest).drop bytes.length) = _
    rw [List.take_left, List.drop_left]

theorem encodeBytes_of_decodeBytes {buf bytes rest : List UInt8}
    (hok : decodeBytes buf = .ok (bytes, rest)) : buf = encodeBytes bytes ++ rest := by
  unfold decodeBytes at hok
  obtain ⟨⟨h, payload⟩, hread, hok⟩ := bind_eq_ok.mp hok
  obtain ⟨hread, hlen⟩ := Header.decode_eq_ok.mp hread
  simp only at hok
  split at hok
  · exact nomatch hok
  · next hlist =>
    cases hok
    obtain ⟨rfl, -, hsingle⟩ | ⟨rfl, rfl, b, tail, rfl, hb⟩ := Header.read_eq_ok hread
    · have htake : (payload.take h.payloadLength).length = h.payloadLength := by
        rw [List.length_take, Nat.min_eq_left hlen]
      have hh : h = ⟨false, (payload.take h.payloadLength).length⟩ := by
        rw [htake]
        cases h
        simpa using hlist
      have hself : ¬ selfEncoded (payload.take h.payloadLength) = true := fun hself => by
        obtain ⟨c, hc, hsmall⟩ := selfEncoded_eq_true.mp hself
        rw [hc] at hh
        obtain ⟨b, tail, rfl, hbig⟩ := hsingle hh
        rw [hh] at hc
        cases hc
        omega
      rw [encodeBytes, if_neg hself, ← hh, List.append_assoc, List.take_append_drop]
    · have hself : selfEncoded [b] = true := selfEncoded_eq_true.mpr ⟨b, rfl, hb⟩
      show b :: tail = encodeBytes [b] ++ tail
      rw [encodeBytes, if_pos hself]
      rfl

/-- The length of a byte string's encoding, as `Encodable for [u8]` has it. -/
def bytesLength (bytes : List UInt8) : Nat :=
  if selfEncoded bytes then bytes.length else lengthOfLength bytes.length + bytes.length

theorem encodeBytes_length (bytes : List UInt8) : (encodeBytes bytes).length = bytesLength bytes := by
  unfold encodeBytes bytesLength
  split
  · rfl
  · rw [List.length_append, Header.encode_length]

/-! ## `u64` -/

/-- `Encodable` and `Decodable` for `u64`. -/
def u64 : Codec UInt64 where
  encode n := encodeBytes (trimmed n.toNat)
  length n := if n.toNat < 0x80 then 1 else 1 + (trimmed n.toNat).length
  decode buf := do
    let (bytes, rest) ← decodeBytes buf
    let n ← staticLeftPad bytes
    .ok (UInt64.ofNat n, rest)

theorem u64_roundTrips (n : UInt64) : u64.RoundTripsOn n := by
  intro rest
  have hlen : (trimmed n.toNat).length < 2 ^ 64 :=
    Nat.lt_of_le_of_lt (bigEndian_length_le 8 n.toNat) (by decide)
  show (decodeBytes (encodeBytes (trimmed n.toNat) ++ rest) >>= _) = _
  rw [decodeBytes_encodeBytes hlen]
  show (staticLeftPad (trimmed n.toNat) >>= _) = _
  rw [staticLeftPad_trimmed n.toNat_lt]
  show Except.ok (UInt64.ofNat n.toNat, rest) = _
  rw [UInt64.ofNat_toNat]

theorem u64_canonical : u64.Canonical := by
  intro buf n rest hok
  obtain ⟨⟨bytes, rest'⟩, hbytes, hok⟩ := bind_eq_ok.mp hok
  obtain ⟨m, hm, hok⟩ := bind_eq_ok.mp hok
  obtain ⟨htrim, hlt⟩ := trimmed_of_staticLeftPad hm
  cases hok
  show buf = encodeBytes (trimmed (UInt64.ofNat m).toNat) ++ rest
  rw [UInt64.toNat_ofNat_of_lt' hlt, htrim]
  exact encodeBytes_of_decodeBytes hbytes

theorem trimmed_of_lt_256 {n : Nat} (hpos : 0 < n) (h : n < 256) :
    trimmed n = [UInt8.ofNat n] := by
  have hdiv : n / 256 = 0 := Nat.div_eq_of_lt h
  show bigEndian (7 + 1) n = _
  rw [bigEndian, if_neg (Nat.ne_of_gt hpos), hdiv, Nat.mod_eq_of_lt h]
  rfl

theorem u64_lengthExact (n : UInt64) : u64.LengthExact n := by
  have hle : (trimmed n.toNat).length ≤ 8 := bigEndian_length_le 8 n.toNat
  have hval : ofBigEndian (trimmed n.toNat) = n.toNat := ofBigEndian_bigEndian n.toNat_lt
  have hshort : lengthOfLength (trimmed n.toNat).length = 1 := if_pos (by omega)
  show (if n.toNat < 0x80 then 1 else 1 + (trimmed n.toNat).length) =
    (encodeBytes (trimmed n.toNat)).length
  rw [encodeBytes_length, bytesLength, hshort]
  split
  · next hsmall =>
    by_cases hzero : n.toNat = 0
    · rw [hzero]
      rfl
    · have hself : selfEncoded [UInt8.ofNat n.toNat] = true :=
        selfEncoded_eq_true.mpr ⟨_, rfl, by rw [UInt8.toNat_ofNat']; omega⟩
      rw [trimmed_of_lt_256 (Nat.pos_of_ne_zero hzero) (by omega), if_pos hself]
      rfl
  · next hbig =>
    rw [if_neg]
    intro hself
    obtain ⟨b, hb, hlt⟩ := selfEncoded_eq_true.mp hself
    rw [hb] at hval
    have hn : 0 * 256 + b.toNat = n.toNat := hval
    omega

theorem u64_length_le (n : UInt64) : u64.length n ≤ 9 := by
  have hle : (trimmed n.toNat).length ≤ 8 := bigEndian_length_le 8 n.toNat
  show (if n.toNat < 0x80 then 1 else 1 + (trimmed n.toNat).length) ≤ 9
  split <;> omega

/-! ## Byte arrays of a fixed size -/

/-- `[u8; size]`. -/
structure Fixed (size : Nat) where
  bytes : List UInt8
  length_eq : bytes.length = size
deriving DecidableEq

/-- `Encodable` and `Decodable` for `[u8; size]`. -/
def fixed (size : Nat) : Codec (Fixed size) where
  encode a := encodeBytes a.bytes
  length a := bytesLength a.bytes
  decode buf := do
    let (bytes, rest) ← decodeBytes buf
    if h : bytes.length = size then .ok (⟨bytes, h⟩, rest) else .error .unexpectedLength

theorem fixed_roundTrips {size : Nat} (hsize : size < 2 ^ 64) (a : Fixed size) :
    (fixed size).RoundTripsOn a := by
  intro rest
  have hlen : a.bytes.length < 2 ^ 64 := by
    rw [a.length_eq]
    exact hsize
  show (decodeBytes (encodeBytes a.bytes ++ rest) >>= _) = _
  rw [decodeBytes_encodeBytes hlen]
  exact dif_pos a.length_eq

theorem fixed_canonical (size : Nat) : (fixed size).Canonical := by
  intro buf a rest hok
  obtain ⟨⟨bytes, rest'⟩, hbytes, hok⟩ := bind_eq_ok.mp hok
  simp only at hok
  split at hok
  · cases hok
    exact encodeBytes_of_decodeBytes hbytes
  · exact nomatch hok

/-! ## Sequences of items -/

section Sequence

variable {α β : Type}

/-- Two round trips in sequence. -/
theorem Codec.RoundTripsOn.bind {c : Codec α} {a : α} (h : c.RoundTripsOn a)
    (f : α × List UInt8 → Except Error β) (rest : List UInt8) :
    (c.decode (c.encode a ++ rest) >>= f) = f (a, rest) := by
  rw [h rest]
  rfl

/-- Encodings of one codec are injective where it round-trips. -/
theorem Codec.RoundTripsOn.injective {c : Codec α} {a b : α} (ha : c.RoundTripsOn a)
    (hb : c.RoundTripsOn b) (heq : c.encode a = c.encode b) : a = b := by
  have hdec := ha []
  rw [heq, hb []] at hdec
  cases hdec
  rfl

/-- An encoding that round-trips is decoded canonically. -/
theorem Codec.RoundTripsOn.canonicalAt {c : Codec α} {a : α} (h : c.RoundTripsOn a) :
    c.CanonicalAt (c.encode a) := by
  intro b rest hok
  have hround := h []
  rw [List.append_nil, hok] at hround
  obtain ⟨rfl, rfl⟩ := Prod.mk.inj (Except.ok.inj hround)
  rw [List.append_nil]

/-- Where it decodes canonically, a codec accepts one encoding of each value. -/
theorem Codec.CanonicalAt.unique {c : Codec α} {a : α} {m m' r : List UInt8}
    (h : c.CanonicalAt m) (h' : c.CanonicalAt m') (hm : c.decode m = .ok (a, r))
    (hm' : c.decode m' = .ok (a, r)) : m = m' := by
  rw [h a r hm, h' a r hm']

end Sequence

end Rlp
