import Allegro.Header

/-!
# The codec of the header

1. `AllegroConsensusContext.decode_eq_ok`: what the hand-written decoder accepts.
   It does not compare its list header with its items.
2. `AllegroConsensusContext.lengthExact`: the hand-written `length`, which the
   derived list header of `AllegroHeader` trusts.
3. `header_codec_round_trips`: both round trips, injectivity, and what the block
   hash commits to.
4. `decoding_canonical_iff_announced`: the inputs accepted without being
   encodings are those whose context announces a wrong length.
-/

namespace Allegro

open Rlp (Codec)
open Fallible (bind_eq_ok)

namespace ProposerKey

theorem roundTrips (key : ProposerKey) : codec.RoundTripsOn key := by
  intro rest
  exact (Rlp.fixed_roundTrips (by decide) key.get).bind _ rest

theorem canonical : codec.Canonical := by
  intro buf key rest hok
  obtain ⟨⟨arr, rest'⟩, harr, hok⟩ := bind_eq_ok.mp hok
  cases hok
  exact Rlp.fixed_canonical 32 buf arr rest harr

theorem encode_eq (key : ProposerKey) : codec.encode key = Rlp.encodeBytes key.get.bytes := rfl

/-- The encoding is one byte longer than `length` says. No codec of the repository asks
for this `length`: a context measures its own payload. -/
theorem encode_length (key : ProposerKey) : (codec.encode key).length = codec.length key + 1 := by
  have hself : ¬ Rlp.selfEncoded key.get.bytes = true := fun h => by
    obtain ⟨b, hb, -⟩ := Rlp.selfEncoded_eq_true.mp h
    have hlen := key.get.length_eq
    rw [hb] at hlen
    exact nomatch hlen
  rw [encode_eq, Rlp.encodeBytes_length, Rlp.bytesLength, if_neg hself, key.get.length_eq]
  rfl

end ProposerKey

namespace AllegroConsensusContext

/-! ## The context -/

theorem decodeFields_payload (ctx : AllegroConsensusContext) (rest : Bytes) :
    decodeFields (ctx.payload ++ rest) = .ok (ctx, rest) := by
  unfold decodeFields payload
  rw [List.append_assoc, (Rlp.u64_roundTrips ctx.epoch).bind]
  simp only
  rw [List.append_assoc, (Rlp.u64_roundTrips ctx.view).bind]
  simp only
  rw [List.append_assoc, (Rlp.u64_roundTrips ctx.parentView).bind]
  simp only
  rw [← ProposerKey.encode_eq, (ProposerKey.roundTrips ctx.proposer).bind]

theorem payload_of_decodeFields {buf rest : Bytes} {ctx : AllegroConsensusContext}
    (hok : decodeFields buf = .ok (ctx, rest)) : buf = ctx.payload ++ rest := by
  unfold decodeFields at hok
  obtain ⟨⟨epoch, b₁⟩, h₁, hok⟩ := bind_eq_ok.mp hok
  obtain ⟨⟨view, b₂⟩, h₂, hok⟩ := bind_eq_ok.mp hok
  obtain ⟨⟨parentView, b₃⟩, h₃, hok⟩ := bind_eq_ok.mp hok
  obtain ⟨⟨proposer, b₄⟩, h₄, hok⟩ := bind_eq_ok.mp hok
  cases hok
  rw [Rlp.u64_canonical _ _ _ h₁, Rlp.u64_canonical _ _ _ h₂, Rlp.u64_canonical _ _ _ h₃,
    ProposerKey.canonical _ _ _ h₄]
  simp only [payload, List.append_assoc]
  rfl

/-- Three numbers of at most nine bytes and the 33 bytes of the key. -/
theorem payload_length_le (ctx : AllegroConsensusContext) : ctx.payload.length ≤ 60 := by
  have hepoch := Rlp.u64_length_le ctx.epoch
  have hview := Rlp.u64_length_le ctx.view
  have hparent := Rlp.u64_length_le ctx.parentView
  have hkey := ProposerKey.encode_length ctx.proposer
  have hlength : ProposerKey.codec.length ctx.proposer = 32 := rfl
  rw [Rlp.u64_lengthExact] at hepoch hview hparent
  unfold payload
  rw [List.length_append, List.length_append, List.length_append, ← ProposerKey.encode_eq]
  omega

theorem payload_length_lt (ctx : AllegroConsensusContext) : ctx.payload.length < 2 ^ 64 :=
  Nat.lt_of_le_of_lt ctx.payload_length_le (by decide)

/-- The items of a context behind a list header that announces `n` bytes. -/
def announcing (n : Nat) (ctx : AllegroConsensusContext) : Bytes :=
  Rlp.Header.encode ⟨true, n⟩ ++ ctx.payload

/-- The list header can be read: `n` is a `usize`, and so many bytes follow. -/
def Announceable (n : Nat) (ctx : AllegroConsensusContext) (rest : Bytes) : Prop :=
  n < 2 ^ 64 ∧ n ≤ (ctx.payload ++ rest).length

/-- What the decoder accepts: the items, behind a list header with any readable length. -/
theorem decode_eq_ok {m rest : Bytes} {ctx : AllegroConsensusContext} :
    decode m = .ok (ctx, rest) ↔ ∃ n, Announceable n ctx rest ∧ m = announcing n ctx ++ rest := by
  unfold decode announcing
  constructor
  · intro hok
    obtain ⟨⟨header, buf⟩, hheader, hok⟩ := bind_eq_ok.mp hok
    simp only at hok
    split at hok
    · exact nomatch hok
    · next hlist =>
      have hlist : header.list = true := by simpa using hlist
      obtain ⟨hm, hsize, hlen⟩ := Rlp.Header.decode_list_canonical hheader hlist
      obtain ⟨list, n⟩ := header
      obtain rfl : list = true := hlist
      rw [payload_of_decodeFields hok] at hm hlen
      exact ⟨n, ⟨hsize, hlen⟩, by rw [hm, List.append_assoc]⟩
  · rintro ⟨n, ⟨hsize, hlen⟩, rfl⟩
    rw [List.append_assoc, Rlp.Header.decode_encode_list _ hsize hlen]
    exact decodeFields_payload ctx rest

theorem announceable_payload_length (ctx : AllegroConsensusContext) (rest : Bytes) :
    Announceable ctx.payload.length ctx rest := by
  refine ⟨ctx.payload_length_lt, ?_⟩
  rw [List.length_append]
  exact Nat.le_add_right _ _

theorem roundTrips (ctx : AllegroConsensusContext) : codec.RoundTripsOn ctx := by
  intro rest
  exact decode_eq_ok.mpr ⟨_, announceable_payload_length ctx rest, rfl⟩

/-- The hand-written `length` is right in the short and in the long form. -/
theorem lengthExact (ctx : AllegroConsensusContext) : codec.LengthExact ctx := by
  have hle := ctx.payload_length_le
  show length ctx = (encode ctx).length
  unfold length encode
  rw [List.length_append, Rlp.Header.encode_length]
  simp only
  rw [Rlp.lengthOfLength]
  by_cases hshort : ctx.payload.length ≤ 55
  · rw [if_pos hshort, if_pos (Nat.lt_succ_of_le hshort)]
  · rw [if_neg hshort, if_pos (by omega), if_neg (by omega),
      Rlp.trimmed_of_lt_256 (by omega) (by omega)]
    rfl

/-- The encoding of a context is short: at most 60 bytes and a list header of two. -/
theorem encode_length_le (ctx : AllegroConsensusContext) : ctx.encode.length ≤ 64 := by
  have hle := ctx.payload_length_le
  have hexact : ctx.length = ctx.encode.length := ctx.lengthExact
  rw [← hexact]
  unfold length
  simp only
  split_ifs <;> omega

theorem announcing_length_pos (n : Nat) (ctx : AllegroConsensusContext) :
    0 < (announcing n ctx).length := by
  have hheader := Rlp.Header.encode_ne_nil ⟨true, n⟩
  exact List.length_pos_of_ne_nil (List.append_ne_nil_of_left_ne_nil hheader _)

theorem announcing_inj {n : Nat} {ctx : AllegroConsensusContext} (hn : n < 2 ^ 64)
    (heq : announcing n ctx = encode ctx) : n = ctx.payload.length :=
  Rlp.Header.encode_list_inj hn ctx.payload_length_lt heq

/-- `m` starts with the items of a context, behind a list header that announces another
number of bytes than they take. -/
def Misannounces (m : Bytes) : Prop :=
  ∃ n ctx rest, Announceable n ctx rest ∧ n ≠ ctx.payload.length ∧ m = announcing n ctx ++ rest

theorem canonicalAt_iff (m : Bytes) : codec.CanonicalAt m ↔ ¬ Misannounces m := by
  constructor
  · rintro h ⟨n, ctx, rest, hn, hne, hm⟩
    have heq : announcing n ctx ++ rest = encode ctx ++ rest :=
      hm.symm.trans (h ctx rest (decode_eq_ok.mpr ⟨n, hn, hm⟩))
    exact hne (announcing_inj hn.1 (List.append_cancel_right heq))
  · intro h ctx rest hok
    obtain ⟨n, hn, hm⟩ := decode_eq_ok.mp hok
    by_cases hlen : n = ctx.payload.length
    · rw [hm, hlen]
      rfl
    · exact absurd ⟨n, ctx, rest, hn, hlen, hm⟩ h

end AllegroConsensusContext

/-! ## The header -/

namespace AllegroHeader

variable {H : Type} {inner : Codec H}

theorem decodeContext_eq_ok {startedLen payloadLength : Nat} {buf rest : Bytes}
    {ctx : Option AllegroConsensusContext} :
    decodeContext startedLen payloadLength buf = .ok (ctx, rest) ↔
      (¬ startedLen - buf.length < payloadLength ∧ ctx = none ∧ rest = buf) ∨
      (startedLen - buf.length < payloadLength ∧
        ∃ c, ctx = some c ∧ AllegroConsensusContext.decode buf = .ok (c, rest)) := by
  unfold decodeContext
  split
  · next hlt =>
    rw [bind_eq_ok]
    constructor
    · rintro ⟨⟨c, rest'⟩, hc, hok⟩
      cases hok
      exact .inr ⟨hlt, c, rfl, hc⟩
    · rintro (⟨hge, -⟩ | ⟨-, c, rfl, hc⟩)
      · exact absurd hlt hge
      · exact ⟨(c, rest), hc, rfl⟩
  · next hge =>
    constructor
    · intro hok
      cases hok
      exact .inl ⟨hge, rfl, rfl⟩
    · rintro (⟨-, rfl, rfl⟩ | ⟨hlt, -⟩)
      · rfl
      · exact absurd hlt hge

/-- The steps of a successful decoding. -/
theorem decode_eq_ok {m rest : Bytes} {h : AllegroHeader H} :
    decode inner m = .ok (h, rest) ↔
      ∃ n buf buf₁ buf₂, Rlp.Header.decode m = .ok (⟨true, n⟩, buf) ∧
        inner.decode buf = .ok (h.inner, buf₁) ∧
        Rlp.u64.decode buf₁ = .ok (h.timestampMillis, buf₂) ∧
        decodeContext buf.length n buf₂ = .ok (h.consensusContext, rest) ∧
        buf.length - rest.length = n := by
  unfold decode
  constructor
  · intro hok
    obtain ⟨⟨⟨list, n⟩, buf⟩, hheader, hok⟩ := bind_eq_ok.mp hok
    cases list with
    | false => exact nomatch hok
    | true =>
      obtain ⟨⟨x, buf₁⟩, hx, hok⟩ := bind_eq_ok.mp hok
      obtain ⟨⟨t, buf₂⟩, ht, hok⟩ := bind_eq_ok.mp hok
      obtain ⟨⟨ctx, buf₃⟩, hctx, hok⟩ := bind_eq_ok.mp hok
      simp only at hok
      split at hok
      · exact nomatch hok
      · next hlen =>
        cases hok
        exact ⟨n, buf, buf₁, buf₂, hheader, hx, ht, hctx, not_not.mp hlen⟩
  · rintro ⟨n, buf, buf₁, buf₂, hheader, hx, ht, hctx, hlen⟩
    refine bind_eq_ok.mpr ⟨_, hheader, bind_eq_ok.mpr ⟨_, hx, bind_eq_ok.mpr
      ⟨_, ht, bind_eq_ok.mpr ⟨_, hctx, ?_⟩⟩⟩⟩
    exact if_neg (not_not.mpr hlen)

/-- The bytes a trailing context is read from: none, or its items behind a list header. -/
inductive ReadsContext : Option AllegroConsensusContext → Bytes → Bytes → Prop
  | absent {rest : Bytes} : ReadsContext none [] rest
  | present (n : Nat) (ctx : AllegroConsensusContext) {rest : Bytes}
      (h : AllegroConsensusContext.Announceable n ctx rest) :
      ReadsContext (some ctx) (AllegroConsensusContext.announcing n ctx) rest

/-- The fields of a header, with the given bytes for the context. -/
def fieldsWith (inner : Codec H) (h : AllegroHeader H) (context : Bytes) : Bytes :=
  inner.encode h.inner ++ (Rlp.u64.encode h.timestampMillis ++ context)

/-- The fields behind a list header that counts them. -/
def encodeWith (inner : Codec H) (h : AllegroHeader H) (context : Bytes) : Bytes :=
  Rlp.Header.encode ⟨true, (fieldsWith inner h context).length⟩ ++ fieldsWith inner h context

/-- `m` is a header `h` whose context is read from `context`, and `rest`. -/
structure Parts (inner : Codec H) (h : AllegroHeader H) (context rest m : Bytes) : Prop where
  inner_ok : inner.decode (fieldsWith inner h context ++ rest) =
    .ok (h.inner, Rlp.u64.encode h.timestampMillis ++ (context ++ rest))
  context_ok : ReadsContext h.consensusContext context rest
  size : (fieldsWith inner h context).length < 2 ^ 64
  bytes : m = encodeWith inner h context ++ rest

theorem decode_of_parts {h : AllegroHeader H} {context rest m : Bytes}
    (hp : Parts inner h context rest m) : decode inner m = .ok (h, rest) := by
  have hlen : (fieldsWith inner h context).length ≤
      (fieldsWith inner h context ++ rest).length := by
    rw [List.length_append]
    exact Nat.le_add_right _ _
  refine decode_eq_ok.mpr ⟨(fieldsWith inner h context).length, fieldsWith inner h context ++ rest,
    Rlp.u64.encode h.timestampMillis ++ (context ++ rest), context ++ rest, ?_, hp.inner_ok,
    Rlp.u64_roundTrips _ _, ?_, ?_⟩
  · rw [hp.bytes, encodeWith, List.append_assoc]
    exact Rlp.Header.decode_encode_list _ hp.size hlen
  · -- the context is looked for exactly if the list is not used up
    rw [decodeContext_eq_ok]
    obtain ⟨x, t, ctx⟩ := h
    cases hp.context_ok with
    | absent =>
      refine .inl ⟨?_, rfl, rfl⟩
      simp only [fieldsWith, List.length_append, List.length_nil]
      omega
    | present n ctx h =>
      have hpos := AllegroConsensusContext.announcing_length_pos n ctx
      refine .inr ⟨?_, ctx, rfl, AllegroConsensusContext.decode_eq_ok.mpr ⟨n, h, rfl⟩⟩
      simp only [fieldsWith, List.length_append]
      omega
  · rw [List.length_append, Nat.add_sub_cancel]

theorem parts_of_decode (hcanon : inner.Canonical) {h : AllegroHeader H} {rest m : Bytes}
    (hok : decode inner m = .ok (h, rest)) : ∃ context, Parts inner h context rest m := by
  obtain ⟨n, buf, buf₁, buf₂, hheader, hx, ht, hctx, hlen⟩ := decode_eq_ok.mp hok
  obtain ⟨hm, hsize, -⟩ := Rlp.Header.decode_list_canonical hheader rfl
  obtain rfl := hcanon _ _ _ hx
  obtain rfl := Rlp.u64_canonical _ _ _ ht
  obtain ⟨context, hreads, rfl⟩ :
      ∃ context, ReadsContext h.consensusContext context rest ∧ buf₂ = context ++ rest := by
    rcases decodeContext_eq_ok.mp hctx with ⟨-, hnone, rfl⟩ | ⟨-, ctx, hsome, hok⟩
    · rw [hnone]
      exact ⟨[], .absent, rfl⟩
    · obtain ⟨n, hn, rfl⟩ := AllegroConsensusContext.decode_eq_ok.mp hok
      rw [hsome]
      exact ⟨_, .present n ctx hn, rfl⟩
  have hfields : inner.encode h.inner ++ (Rlp.u64.encode h.timestampMillis ++ (context ++ rest)) =
      fieldsWith inner h context ++ rest := by
    rw [fieldsWith, List.append_assoc, List.append_assoc]
  obtain rfl : (fieldsWith inner h context).length = n := by
    rw [← hlen, hfields, List.length_append, Nat.add_sub_cancel]
  rw [hfields] at hx hm
  exact ⟨context, hx, hreads, hsize, hm.trans (List.append_assoc _ _ _).symm⟩

/-! ### Round trip -/

/-- The bytes of the context in an encoding. -/
def contextBytes (h : AllegroHeader H) : Bytes :=
  (h.consensusContext.map AllegroConsensusContext.encode).getD []

theorem readsContext_contextBytes (h : AllegroHeader H) (rest : Bytes) :
    ReadsContext h.consensusContext h.contextBytes rest := by
  unfold contextBytes
  cases h.consensusContext with
  | none => exact .absent
  | some ctx => exact .present _ ctx (ctx.announceable_payload_length rest)

/-- The derived list header announces the bytes of the fields. -/
theorem fieldsWith_length {h : AllegroHeader H} (hinner : inner.LengthExact h.inner) :
    (fieldsWith inner h h.contextBytes).length = payloadLength inner h := by
  unfold fieldsWith payloadLength contextBytes
  rw [List.length_append, List.length_append, hinner, Rlp.u64_lengthExact, Nat.add_assoc]
  cases h.consensusContext with
  | none => rfl
  | some ctx =>
    have hctx : ctx.length = ctx.encode.length := ctx.lengthExact
    simp [hctx]

theorem encode_eq {h : AllegroHeader H} (hinner : inner.LengthExact h.inner) :
    encode inner h = encodeWith inner h h.contextBytes := by
  rw [encodeWith, fieldsWith_length hinner]
  rfl

/-- What the round trip needs of alloy's codec on an inner header: it round-trips,
`length()` is the length of the encoding, and the encoding fits in a buffer, which
has at most `isize::MAX` bytes. -/
structure InnerSound (inner : Codec H) (x : H) : Prop where
  roundTrips : inner.RoundTripsOn x
  lengthExact : inner.LengthExact x
  fits : (inner.encode x).length < 2 ^ 63

/-- The context of a header may be read from any short bytes that hold it. -/
theorem parts_of_reads {h : AllegroHeader H} {context rest : Bytes}
    (hinner : InnerSound inner h.inner) (hshort : context.length ≤ 64)
    (hreads : ReadsContext h.consensusContext context rest) :
    Parts inner h context rest (encodeWith inner h context ++ rest) where
  inner_ok := by
    rw [fieldsWith, List.append_assoc, List.append_assoc]
    exact hinner.roundTrips _
  context_ok := hreads
  size := by
    have hfits := hinner.fits
    have htime := Rlp.u64_length_le h.timestampMillis
    rw [Rlp.u64_lengthExact] at htime
    rw [fieldsWith, List.length_append, List.length_append]
    omega
  bytes := rfl

theorem roundTrips {h : AllegroHeader H} (hinner : InnerSound inner h.inner) :
    (codec inner).RoundTripsOn h := by
  intro rest
  have hshort : h.contextBytes.length ≤ 64 := by
    unfold contextBytes
    cases h.consensusContext with
    | none => exact Nat.zero_le _
    | some ctx => exact ctx.encode_length_le
  have hparts := parts_of_reads hinner hshort (readsContext_contextBytes h rest)
  rw [← encode_eq hinner.lengthExact] at hparts
  exact decode_of_parts hparts

theorem injective {h h' : AllegroHeader H} (hinner : InnerSound inner h.inner)
    (hinner' : InnerSound inner h'.inner) (heq : encode inner h = encode inner h') : h = h' :=
  (roundTrips hinner).injective (roundTrips hinner') heq

/-! ### Canonicity -/

/-- `m` is a header in everything but the list header of its context, which announces
another number of bytes than its items take. -/
def Misannounces (inner : Codec H) (m : Bytes) : Prop :=
  ∃ h n ctx rest, h.consensusContext = some ctx ∧
    AllegroConsensusContext.Announceable n ctx rest ∧ n ≠ ctx.payload.length ∧
    Parts inner h (AllegroConsensusContext.announcing n ctx) rest m

theorem canonicalAt_iff (hcanon : inner.Canonical) (hlen : ∀ x, inner.LengthExact x) (m : Bytes) :
    (codec inner).CanonicalAt m ↔ ¬ Misannounces inner m := by
  constructor
  · rintro hcan ⟨h, n, ctx, rest, hctx, hn, hne, hp⟩
    have hm : m = encode inner h ++ rest := hcan h rest (decode_of_parts hp)
    rw [hp.bytes, encode_eq (hlen h.inner)] at hm
    have hm := List.append_cancel_right hm
    unfold encodeWith at hm
    have hencode : h.contextBytes = ctx.encode := by
      rw [contextBytes, hctx]
      rfl
    -- the two outer list headers count the same, so the fields are the same
    have hcount : (fieldsWith inner h (AllegroConsensusContext.announcing n ctx)).length =
        (fieldsWith inner h h.contextBytes).length := by
      have hlens := congrArg List.length hm
      simp only [List.length_append, Rlp.Header.encode_length] at hlens
      exact Rlp.lengthOfLength_add_inj (by omega)
    rw [hcount] at hm
    have hfields := List.append_cancel_left hm
    have hcontext := List.append_cancel_left (List.append_cancel_left hfields)
    rw [hencode] at hcontext
    exact hne (AllegroConsensusContext.announcing_inj hn.1 hcontext)
  · intro hmis h rest hok
    obtain ⟨context, hp⟩ := parts_of_decode hcanon hok
    have hcontext : context = h.contextBytes := by
      have hreads := hp.context_ok
      cases hctx : h.consensusContext with
      | none =>
        rw [hctx] at hreads
        cases hreads
        rw [contextBytes, hctx]
        rfl
      | some ctx =>
        rw [hctx] at hreads
        cases hreads with
        | present n _ hn =>
          by_cases hlen : n = ctx.payload.length
          · rw [contextBytes, hctx, hlen]
            rfl
          · exact absurd ⟨h, n, ctx, rest, hctx, hn, hlen, hp⟩ hmis
    show m = encode inner h ++ rest
    rw [hp.bytes, hcontext, encode_eq (hlen h.inner)]

end AllegroHeader

/-! ## A small header -/

/-- `EMPTY_OMMER_ROOT_HASH` and `EMPTY_ROOT_HASH`. -/
def emptyOmmerRootHash : Bytes :=
  [0x1d, 0xcc, 0x4d, 0xe8, 0xde, 0xc7, 0x5d, 0x7a, 0xab, 0x85, 0xb5, 0x67, 0xb6, 0xcc, 0xd4, 0x1a,
    0xd3, 0x12, 0x45, 0x1b, 0x94, 0x8a, 0x74, 0x13, 0xf0, 0xa1, 0x42, 0xfd, 0x40, 0xd4, 0x93, 0x47]

def emptyRootHash : Bytes :=
  [0x56, 0xe8, 0x1f, 0x17, 0x1b, 0xcc, 0x55, 0xa6, 0xff, 0x83, 0x45, 0xe6, 0x92, 0xc0, 0xf8, 0x6e,
    0x5b, 0x48, 0xe0, 0x1b, 0x99, 0x6c, 0xad, 0xc0, 0x01, 0x62, 0x2f, 0xb5, 0xe3, 0x63, 0xb4, 0x21]

/-- The items of alloy's `Header::default()`, from the parent hash to the nonce. -/
def defaultHeaderItems : List Bytes :=
  let zeros (n : Nat) : Bytes := List.replicate n 0
  [zeros 32, emptyOmmerRootHash, zeros 20, emptyRootHash, emptyRootHash, emptyRootHash, zeros 256,
    [], [], [], [], [], [], zeros 32, zeros 8]

def defaultHeaderBytes : Bytes :=
  let payload := defaultHeaderItems.flatMap Rlp.encodeBytes
  Rlp.Header.encode ⟨true, payload.length⟩ ++ payload

/-- A codec on one value with the given encoding. -/
def singleton (bytes : Bytes) : Codec Unit where
  encode _ := bytes
  length _ := bytes.length
  decode buf :=
    if bytes.isPrefixOf buf then .ok ((), buf.drop bytes.length) else .error .unexpectedString

theorem singleton_canonical (bytes : Bytes) : (singleton bytes).Canonical := by
  intro buf x rest hok
  unfold singleton at hok
  simp only at hok
  split at hok
  · next hprefix =>
    cases hok
    obtain ⟨tail, rfl⟩ := List.isPrefixOf_iff_prefix.mp hprefix
    rw [List.drop_left]
    rfl
  · exact nomatch hok

theorem singleton_sound {bytes : Bytes} (hfits : bytes.length < 2 ^ 63) :
    AllegroHeader.InnerSound (singleton bytes) () where
  roundTrips := by
    intro rest
    show (if bytes.isPrefixOf (bytes ++ rest) then
      Except.ok ((), (bytes ++ rest).drop bytes.length) else _) = _
    rw [if_pos (List.isPrefixOf_iff_prefix.mpr (List.prefix_append _ _)), List.drop_left]
  lengthExact := rfl
  fits := hfits

theorem defaultHeaderBytes_length : defaultHeaderBytes.length = 496 := by decide +kernel

/-- Alloy's codec on its default header. -/
def defaultHeaderCodec : Codec Unit := singleton defaultHeaderBytes

theorem defaultHeaderCodec_sound : AllegroHeader.InnerSound defaultHeaderCodec () :=
  singleton_sound (by rw [defaultHeaderBytes_length]; decide)

/-- A context in view 5, and the header of its block. -/
def sampleContext : AllegroConsensusContext := ⟨1, 5, 4, ProposerKey.repeatByte 0xab⟩

def sampleHeader : AllegroHeader Unit := ⟨(), 1700000000123, some sampleContext⟩

/-! ## The two laws -/

/-- The encoding of every context, and of every header over an inner header on which
alloy's codec is sound, followed by any bytes, is decoded to it and leaves those
bytes. Both encodings are injective, and two headers with one block hash are
equal, context or none, or their encodings are a collision of keccak256. -/
theorem header_codec_round_trips {H : Type} (inner : Codec H) :
    (∀ ctx s, AllegroConsensusContext.decode (ctx.encode ++ s) = .ok (ctx, s)) ∧
    (∀ ctx ctx' : AllegroConsensusContext, ctx.encode = ctx'.encode → ctx = ctx') ∧
    (∀ (h : AllegroHeader H) (s : Bytes), AllegroHeader.InnerSound inner h.inner →
      AllegroHeader.decode inner (h.encode inner ++ s) = .ok (h, s)) ∧
    (∀ h h' : AllegroHeader H, AllegroHeader.InnerSound inner h.inner →
      AllegroHeader.InnerSound inner h'.inner →
      (h.encode inner = h'.encode inner → h = h') ∧
      ∀ keccak256 : Bytes → B256, h.hashSlow keccak256 inner = h'.hashSlow keccak256 inner →
        h = h' ∨ (h.encode inner ≠ h'.encode inner ∧
          keccak256 (h.encode inner) = keccak256 (h'.encode inner))) := by
  refine ⟨AllegroConsensusContext.roundTrips, fun ctx ctx' heq => ?_, fun h s hinner => ?_,
    fun h h' hinner hinner' => ⟨AllegroHeader.injective hinner hinner', fun keccak256 hhash => ?_⟩⟩
  · exact (AllegroConsensusContext.roundTrips ctx).injective
      (AllegroConsensusContext.roundTrips ctx') heq
  · exact AllegroHeader.roundTrips hinner s
  · by_cases heq : h.encode inner = h'.encode inner
    · exact .inl (AllegroHeader.injective hinner hinner' heq)
    · exact .inr ⟨heq, hhash⟩

/-- The sample header, over alloy's default header. -/
theorem sample_header_round_trips :
    AllegroHeader.InnerSound defaultHeaderCodec () ∧
      AllegroHeader.decode defaultHeaderCodec (sampleHeader.encode defaultHeaderCodec ++ [7]) =
        .ok (sampleHeader, [7]) :=
  ⟨defaultHeaderCodec_sound,
    (header_codec_round_trips defaultHeaderCodec).2.2.1 sampleHeader [7] defaultHeaderCodec_sound⟩

/-- On every input, the decoder of a context is canonical exactly if the input is not
made of the items of a context behind a list header that announces another
number of bytes; and the decoder of a header, over an inner codec that is
canonical, exactly if the context in it is not so. Two inputs of the second
kind that are decoded to one header and leave the same bytes are equal. -/
theorem decoding_canonical_iff_announced {H : Type} (inner : Codec H) (hcanon : inner.Canonical)
    (hlen : ∀ x, inner.LengthExact x) :
    (∀ m, (∀ ctx r, AllegroConsensusContext.decode m = .ok (ctx, r) → m = ctx.encode ++ r) ↔
      ¬ AllegroConsensusContext.Misannounces m) ∧
    (∀ m, (∀ h r, AllegroHeader.decode inner m = .ok (h, r) → m = h.encode inner ++ r) ↔
      ¬ AllegroHeader.Misannounces inner m) ∧
    (∀ m m' h r, ¬ AllegroHeader.Misannounces inner m → ¬ AllegroHeader.Misannounces inner m' →
      AllegroHeader.decode inner m = .ok (h, r) → AllegroHeader.decode inner m' = .ok (h, r) →
      m = m') := by
  refine ⟨AllegroConsensusContext.canonicalAt_iff, AllegroHeader.canonicalAt_iff hcanon hlen,
    fun m m' h r hm hm' hok hok' => ?_⟩
  have hat := (AllegroHeader.canonicalAt_iff hcanon hlen m).mpr hm
  have hat' := (AllegroHeader.canonicalAt_iff hcanon hlen m').mpr hm'
  exact hat.unique hat' hok hok'

theorem defaultHeaderCodec_lengthExact (x : Unit) : defaultHeaderCodec.LengthExact x :=
  defaultHeaderCodec_sound.lengthExact

/-- The encoding of the sample header is accepted as it is. -/
theorem sample_encoding_announced :
    defaultHeaderCodec.Canonical ∧ (∀ x, defaultHeaderCodec.LengthExact x) ∧
      ¬ AllegroHeader.Misannounces defaultHeaderCodec (sampleHeader.encode defaultHeaderCodec) := by
  have hlaw := decoding_canonical_iff_announced defaultHeaderCodec (singleton_canonical _)
    defaultHeaderCodec_lengthExact
  have hround := AllegroHeader.roundTrips (h := sampleHeader) defaultHeaderCodec_sound
  exact ⟨singleton_canonical _, defaultHeaderCodec_lengthExact, (hlaw.2.1 _).mp hround.canonicalAt⟩

/-- The sample header, with a context whose list header announces no bytes. -/
def wrongLengthHeader : Bytes :=
  AllegroHeader.encodeWith defaultHeaderCodec sampleHeader
    (AllegroConsensusContext.announcing 0 sampleContext)

theorem wrongLengthHeader_parts :
    AllegroHeader.Parts defaultHeaderCodec sampleHeader
      (AllegroConsensusContext.announcing 0 sampleContext) [] wrongLengthHeader := by
  have hreads : AllegroHeader.ReadsContext sampleHeader.consensusContext
      (AllegroConsensusContext.announcing 0 sampleContext) [] :=
    .present 0 sampleContext ⟨by decide, Nat.zero_le _⟩
  have hparts := AllegroHeader.parts_of_reads (h := sampleHeader) defaultHeaderCodec_sound
    (by decide) hreads
  rwa [List.append_nil] at hparts

/-- The list header of the sample context announces 36 bytes. With `0xc0` in its place,
which announces none, the context and the header are decoded all the same. -/
theorem wrong_context_length_accepted :
    (let m := (0xc0 : UInt8) :: sampleContext.payload
     AllegroConsensusContext.decode m = .ok (sampleContext, []) ∧ m ≠ sampleContext.encode ++ []) ∧
    (let m := sampleHeader.encode defaultHeaderCodec
     AllegroHeader.decode defaultHeaderCodec m = .ok (sampleHeader, []) ∧
      AllegroHeader.decode defaultHeaderCodec wrongLengthHeader = .ok (sampleHeader, []) ∧
      wrongLengthHeader ≠ m) := by
  refine ⟨⟨?_, by decide⟩, ?_, AllegroHeader.decode_of_parts wrongLengthHeader_parts, ?_⟩
  · exact AllegroConsensusContext.decode_eq_ok.mpr
      ⟨0, ⟨by decide, Nat.zero_le _⟩, (List.append_nil _).symm⟩
  · have hround := AllegroHeader.roundTrips (h := sampleHeader) defaultHeaderCodec_sound []
    rwa [List.append_nil] at hround
  · intro heq
    have hat := (AllegroHeader.roundTrips (h := sampleHeader) defaultHeaderCodec_sound).canonicalAt
    refine (AllegroHeader.canonicalAt_iff (singleton_canonical _) defaultHeaderCodec_lengthExact
      wrongLengthHeader).mp (heq ▸ hat) ?_
    exact ⟨sampleHeader, 0, sampleContext, [], rfl, ⟨by decide, Nat.zero_le _⟩, by decide,
      wrongLengthHeader_parts⟩

end Allegro
