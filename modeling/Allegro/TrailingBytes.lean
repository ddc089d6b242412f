import Allegro.Node

/-!
# How many byte strings validate as one block?

The validate closure decodes a block from the front of its input and drops the
rest. Neither the hash nor the verdict of the execution layer sees the raw bytes
again, so the encoding of a valid block is accepted with anything behind it. What
was accepted is the encoding of a block exactly if nothing is left behind the
block, and two inputs that are accepted as one block differ in what is left.

Results:
1. `valid_block_eq`: two blocks that validate with one hash are one block.
2. `valid_bytes_unique_iff`: when what validates is the encoding of a block, and
   when two byte strings that validate as one block are the same.
3. `trailing_byte_accepted`: a block, and the block with one byte behind it.
-/

namespace Allegro

/-- RLP decoding is canonical on the prefix it consumes. -/
def Alloy.Canonical (A : Alloy) : Prop :=
  ∀ bytes block rest, A.decode bytes = .ok (block, rest) → bytes = A.encode block ++ rest

/-- What is left of the input behind the block it starts with. -/
def Alloy.trailing (A : Alloy) (bytes : Bytes) : Bytes :=
  match A.decode bytes with
  | .ok (_, rest) => rest
  | .error _ => []

/-- `new_payload` reports `Valid` only for a body that matches the commitments of
the header. -/
def Reth.ChecksBody {A : Alloy} (commits : A.Header → A.Body → Prop) (reth : Reth A) : Prop :=
  ∀ block, reth.newPayload block = .ok .valid → commits block.header block.body

section Validate

variable {A : Alloy} {commits : A.Header → A.Body → Prop} {reth₁ reth₂ : Reth A}

/-- A header has one body that matches its commitments, so blocks that validate
with one hash are the same. -/
theorem valid_block_eq (hfree : A.CollisionFree)
    (hone : ∀ header body body', commits header body → commits header body' → body = body')
    (h₁ : reth₁.ChecksBody commits) (h₂ : reth₂.ChecksBody commits) {b₁ b₂ : A.Block}
    (hv₁ : reth₁.newPayload b₁ = .ok .valid) (hv₂ : reth₂.newPayload b₂ = .ok .valid)
    (hhash : A.hashSlow b₁.header = A.hashSlow b₂.header) : b₁ = b₂ := by
  obtain ⟨header₁, body₁⟩ := b₁
  obtain ⟨header₂, body₂⟩ := b₂
  have hheader : header₁ = header₂ := hfree hhash
  subst hheader
  have hbody : body₁ = body₂ := hone _ _ _ (h₁ _ hv₁) (h₂ _ hv₂)
  rw [hbody]

/-- Over a decoder that is canonical on the prefix it consumes, collision-free
header hashes, and an execution layer that checks bodies against headers: bytes
that the validate closure reports `Valid` are the encoding of the block that they
were decoded to exactly if nothing is left behind it. Two byte strings that are
reported `Valid` with one hash, by whichever calls, are the same exactly if the
same is left behind their blocks. -/
theorem valid_bytes_unique_iff (hcanon : A.Canonical) (hfree : A.CollisionFree)
    (hone : ∀ header body body', commits header body → commits header body' → body = body')
    (h₁ : reth₁.ChecksBody commits) (h₂ : reth₂.ChecksBody commits) :
    (∀ bytes parentHash m, validateClosure A reth₁ ⟨bytes, parentHash⟩ = .ok (.valid m) →
      ((∀ block rest, A.decode bytes = .ok (block, rest) → bytes = A.encode block) ↔
        A.trailing bytes = [])) ∧
    (∀ bytes₁ bytes₂ parentHash₁ parentHash₂ m₁ m₂,
      validateClosure A reth₁ ⟨bytes₁, parentHash₁⟩ = .ok (.valid m₁) →
      validateClosure A reth₂ ⟨bytes₂, parentHash₂⟩ = .ok (.valid m₂) → m₁.hash = m₂.hash →
      (bytes₁ = bytes₂ ↔ A.trailing bytes₁ = A.trailing bytes₂)) := by
  constructor
  · intro bytes parentHash m hvalid
    obtain ⟨block, rest, hdecode, _, _⟩ := validateClosure_valid.mp hvalid
    have hbytes := hcanon bytes block rest hdecode
    simp only [Alloy.trailing, hdecode]
    constructor
    · intro hwhole
      have heq : A.encode block = A.encode block ++ rest := (hwhole block rest rfl).symm.trans hbytes
      exact List.self_eq_append_right.mp heq
    · rintro rfl block' rest' hdecode'
      cases hdecode'
      rwa [List.append_nil] at hbytes
  · intro bytes₁ bytes₂ parentHash₁ parentHash₂ m₁ m₂ hvalid₁ hvalid₂ hhash
    obtain ⟨b₁, rest₁, hdecode₁, hnew₁, rfl⟩ := validateClosure_valid.mp hvalid₁
    obtain ⟨b₂, rest₂, hdecode₂, hnew₂, rfl⟩ := validateClosure_valid.mp hvalid₂
    have hblock : b₁ = b₂ := valid_block_eq hfree hone h₁ h₂ hnew₁ hnew₂ hhash
    have hbytes₁ : bytes₁ = A.encode b₁ ++ rest₁ := hcanon _ _ _ hdecode₁
    have hbytes₂ : bytes₂ = A.encode b₂ ++ rest₂ := hcanon _ _ _ hdecode₂
    have htrailing₁ : A.trailing bytes₁ = rest₁ := by simp only [Alloy.trailing, hdecode₁]
    have htrailing₂ : A.trailing bytes₂ = rest₂ := by simp only [Alloy.trailing, hdecode₂]
    rw [htrailing₁, htrailing₂, hbytes₁, hbytes₂, hblock, List.append_cancel_left_eq]

end Validate

/-! ## One block, twice -/

namespace TrailingBytesLemmas

theorem ofCode_eq_some {c : UInt8} {h : SampleHeader} (hc : SampleHeader.ofCode c = some h) :
    c = h.code := by
  unfold SampleHeader.ofCode at hc
  split at hc
  · cases hc
    rfl
  · cases hc
    rfl
  · cases hc
    rfl
  · cases hc
    rfl
  · cases hc

theorem sampleAlloy_canonical : sampleAlloy.Canonical := by
  intro bytes block rest hdecode
  cases bytes with
  | nil => cases hdecode
  | cons c bytes =>
    cases hc : SampleHeader.ofCode c with
    | none =>
      simp only [sampleAlloy, hc] at hdecode
      cases hdecode
    | some h =>
      simp only [sampleAlloy, hc] at hdecode
      cases hdecode
      exact congrArg (· :: rest) (ofCode_eq_some hc)

/-- A header of the small chain has one body. -/
def commitsAny (_ : SampleHeader) (_ : Unit) : Prop := True

end TrailingBytesLemmas

open TrailingBytesLemmas

/-- Of all byte strings that validate as block `one`, with nothing behind the block,
there is one. -/
theorem block_one_bytes_unique :
    validateOne [2] B256.ZERO = .ok (.valid (blockMeta sampleAlloy .one)) ∧
      ∀ bytes, validateOne bytes B256.ZERO = .ok (.valid (blockMeta sampleAlloy .one)) →
        sampleAlloy.trailing bytes = [] → bytes = [2] := by
  have hvalid : validateOne [2] B256.ZERO = .ok (.valid (blockMeta sampleAlloy .one)) := rfl
  have hlaw := @valid_bytes_unique_iff sampleAlloy commitsAny (sampleReth .one) (sampleReth .one)
    sampleAlloy_canonical sampleAlloy_collisionFree (fun _ _ _ _ _ => rfl) (fun _ _ => trivial)
    (fun _ _ => trivial)
  refine ⟨hvalid, fun bytes hbytes htrailing => ?_⟩
  exact (hlaw.2 bytes [2] B256.ZERO B256.ZERO _ _ hbytes hvalid rfl).mpr htrailing

/-- Block `one` with one more byte behind it validates as well. -/
theorem trailing_byte_accepted :
    validateOne [2] B256.ZERO = .ok (.valid (blockMeta sampleAlloy .one)) ∧
      validateOne [2, 9] B256.ZERO = .ok (.valid (blockMeta sampleAlloy .one)) ∧
      ([2] : Bytes) ≠ [2, 9] ∧ ([2, 9] : Bytes) ≠ sampleAlloy.encode ⟨SampleHeader.one, ()⟩ :=
  ⟨rfl, rfl, by decide, by decide⟩

end Allegro
