import Mathlib.Data.Finmap

/-!
# Primitive types

The byte-level types shared by every layer (`crates/primitives`), the two
standard-library containers the node shares between its tasks, and what the
node uses of alloy's block type.

* `B256`, `Digest`, `PublicKey`: 32-byte values. The length is part of the
  type.
* `HashMap`: a finite map, up to iteration order (`Finmap`).
* `Lock`: a `std::sync` lock. A poisoned lock answers every access with an
  error, and the data behind it stays as it was.
* `Alloy`: the header fields the node reads, the header hash and the RLP codec
  of a block. The library is not part of the repository, so it is a parameter.
  What a result needs of it is a named hypothesis (`Alloy.CollisionFree`,
  `Alloy.RoundTrips`, `Alloy.NonZero`).
-/

namespace Allegro

abbrev Bytes := List UInt8

/-! ## 32-byte values -/

/-- `alloy_primitives::B256`. -/
structure B256 where
  bytes : Bytes
  size : bytes.length = 32
deriving DecidableEq

namespace B256

/-- The value with the same byte in all 32 places. -/
def repeatByte (b : UInt8) : B256 := ⟨List.replicate 32 b, List.length_replicate⟩

/-- `B256::ZERO`. -/
def ZERO : B256 := repeatByte 0

@[ext] theorem ext {a b : B256} (h : a.bytes = b.bytes) : a = b := by
  cases a
  cases b
  cases h
  rfl

end B256

/-- `allegro_primitives::Digest`: the consensus digest of a block. -/
structure Digest where
  get : B256
deriving DecidableEq

/-- `Digest::EMPTY`, the consensus digest of genesis. -/
def Digest.EMPTY : Digest := ⟨B256.ZERO⟩

/-- An ed25519 public key. -/
structure PublicKey where
  bytes : Bytes
  size : bytes.length = 32
deriving DecidableEq

/-- The key with the same byte in all 32 places. -/
def PublicKey.repeatByte (b : UInt8) : PublicKey := ⟨List.replicate 32 b, List.length_replicate⟩

/-! ## `u64` arithmetic -/

/-- `u64::saturating_add`. -/
def saturatingAdd (a b : UInt64) : UInt64 :=
  if a.toNat + b.toNat < UInt64.size then a + b else UInt64.ofNat (UInt64.size - 1)

/-- `u64::saturating_mul`. -/
def saturatingMul (a b : UInt64) : UInt64 :=
  if a.toNat * b.toNat < UInt64.size then a * b else UInt64.ofNat (UInt64.size - 1)

theorem saturatingAdd_toNat (a b : UInt64) :
    (saturatingAdd a b).toNat = min (a.toNat + b.toNat) (2 ^ 64 - 1) := by
  have hsize : UInt64.size = 2 ^ 64 := rfl
  unfold saturatingAdd
  split
  · next h =>
    rw [UInt64.toNat_add, Nat.mod_eq_of_lt h]
    omega
  · next h =>
    show UInt64.size - 1 = _
    omega

theorem saturatingMul_toNat (a b : UInt64) :
    (saturatingMul a b).toNat = min (a.toNat * b.toNat) (2 ^ 64 - 1) := by
  have hsize : UInt64.size = 2 ^ 64 := rfl
  unfold saturatingMul
  split
  · next h =>
    rw [UInt64.toNat_mul, Nat.mod_eq_of_lt h]
    omega
  · next h =>
    show UInt64.size - 1 = _
    omega

/-! ## Containers -/

/-- `std::collections::HashMap`, up to iteration order. -/
abbrev HashMap (K V : Type) := Finmap fun _ : K => V

/-- A `Mutex` or `RwLock` of `std::sync`. -/
structure Lock (α : Type) where
  value : α
  poisoned : Bool

namespace Lock

variable {α : Type}

def new (a : α) : Lock α := ⟨a, false⟩

/-- `lock()` / `read()`: `none` is the poison error. -/
def read (l : Lock α) : Option α := if l.poisoned then none else some l.value

/-- `lock()` / `write()` and an update of the data. Under a poisoned lock the
code logs the error and goes on without the update. -/
def modify (f : α → α) (l : Lock α) : Lock α :=
  if l.poisoned then l else { l with value := f l.value }

/-- `HashMap::insert` behind the lock. -/
def insert {K V : Type} [DecidableEq K] (l : Lock (HashMap K V)) (k : K) (v : V) :
    Lock (HashMap K V) :=
  l.modify fun map => map.insert k v

theorem read_eq_some {l : Lock α} {a : α} : l.read = some a ↔ l.poisoned = false ∧ l.value = a := by
  unfold read
  cases l.poisoned <;> simp

@[simp] theorem modify_poisoned (f : α → α) (l : Lock α) :
    (l.modify f).poisoned = l.poisoned := by
  unfold modify
  split
  · rfl
  · rfl

theorem modify_of_poisoned {l : Lock α} (hl : l.poisoned = true) (f : α → α) : l.modify f = l :=
  if_pos hl

theorem modify_value {l : Lock α} (hl : l.poisoned = false) (f : α → α) :
    (l.modify f).value = f l.value := by
  rw [modify, hl, if_neg Bool.false_ne_true]

/-- A value is in the list after a push if the push could be made or it was there. -/
theorem mem_modify_concat {l : Lock (List α)} {x : α} :
    x ∈ (l.modify fun list => list ++ [x]).value ↔ l.poisoned = false ∨ x ∈ l.value := by
  cases hl : l.poisoned with
  | true =>
    rw [modify_of_poisoned hl]
    exact ⟨.inr, fun h => h.resolve_left (nomatch ·)⟩
  | false =>
    rw [modify_value hl]
    exact ⟨fun _ => .inl rfl, fun _ => List.mem_append_right _ (List.mem_singleton_self x)⟩

section Insert

variable {K V : Type} [DecidableEq K] {l : Lock (HashMap K V)} {k k' : K} {v v' : V}

@[simp] theorem insert_poisoned (l : Lock (HashMap K V)) (k : K) (v : V) :
    (l.insert k v).poisoned = l.poisoned :=
  modify_poisoned _ l

theorem lookup_insert_self (hl : l.poisoned = false) (k : K) (v : V) :
    (l.insert k v).value.lookup k = some v := by
  rw [insert, modify_value hl]
  exact Finmap.lookup_insert _

theorem lookup_insert_ne (l : Lock (HashMap K V)) (hk : k' ≠ k) (v : V) :
    (l.insert k v).value.lookup k' = l.value.lookup k' := by
  unfold insert modify
  split
  · rfl
  · exact Finmap.lookup_insert_of_ne _ hk

/-- After an insert a key holds what it held before, or it is the key inserted. -/
theorem lookup_insert_cases (h : (l.insert k v).value.lookup k' = some v') :
    l.value.lookup k' = some v' ∨ (k' = k ∧ v' = v) := by
  by_cases hk : k' = k
  · subst hk
    cases hl : l.poisoned with
    | true =>
      rw [insert, modify_of_poisoned hl] at h
      exact .inl h
    | false =>
      rw [lookup_insert_self hl] at h
      cases h
      exact .inr ⟨rfl, rfl⟩
  · rw [lookup_insert_ne l hk] at h
    exact .inl h

/-- A key is in the map after an insert if the insert could be made or the key was there. -/
theorem lookup_insert_self_isSome :
    ((l.insert k v).value.lookup k).isSome ↔ l.poisoned = false ∨ (l.value.lookup k).isSome := by
  cases hl : l.poisoned with
  | true =>
    rw [insert, modify_of_poisoned hl]
    exact ⟨.inr, fun h => h.resolve_left (nomatch ·)⟩
  | false =>
    rw [lookup_insert_self hl]
    exact ⟨fun _ => .inl rfl, fun _ => rfl⟩

theorem lookup_insert_isSome (h : (l.value.lookup k').isSome) :
    ((l.insert k v).value.lookup k').isSome := by
  by_cases hk : k' = k
  · subst hk
    exact lookup_insert_self_isSome.mpr (.inr h)
  · rw [lookup_insert_ne l hk]
    exact h

end Insert

end Lock

/-! ## Blocks -/

/-- A block of the execution layer: header and body. -/
structure EthBlock (Header Body : Type) where
  header : Header
  body : Body
deriving DecidableEq

/-- What the node uses of alloy's block type. `decode` consumes a prefix of its
input and returns the rest. `printable` are the characters beyond ASCII that a
`Debug` form shows as they are. -/
structure Alloy where
  Header : Type
  Body : Type
  parentHash : Header → B256
  number : Header → UInt64
  timestamp : Header → UInt64
  hashSlow : Header → B256
  encode : EthBlock Header Body → Bytes
  decode : Bytes → Except String (EthBlock Header Body × Bytes)
  printable : Char → Bool

namespace Alloy

abbrev Block (A : Alloy) := EthBlock A.Header A.Body

/-- Header hashing is collision free. -/
def CollisionFree (A : Alloy) : Prop := Function.Injective A.hashSlow

/-- No header hashes to zero. -/
def NonZero (A : Alloy) : Prop := ∀ h, A.hashSlow h ≠ B256.ZERO

/-- RLP decoding undoes encoding of a block. -/
def RoundTrips (A : Alloy) : Prop := ∀ b : A.Block, A.decode (A.encode b) = .ok (b, [])

/-- The bytes are the encoding of a block with the header hash `hash`. -/
def Encodes (A : Alloy) (bytes : Bytes) (hash : B256) : Prop :=
  ∃ b : A.Block, bytes = A.encode b ∧ A.hashSlow b.header = hash

end Alloy

/-! ## A small chain

Four headers, with every hash, parent and codec written out: genesis, two
blocks on top of it and a fork at height one. -/

inductive SampleHeader
  | genesis
  | one
  | two
  | fork
deriving DecidableEq

namespace SampleHeader

def code : SampleHeader → UInt8
  | genesis => 1
  | one => 2
  | two => 3
  | fork => 4

def hash (h : SampleHeader) : B256 := B256.repeatByte h.code

/-- The chain is `genesis ← one ← two`, and `fork` is a sibling of `one`. -/
def parent : SampleHeader → SampleHeader
  | genesis => genesis
  | one => genesis
  | two => one
  | fork => genesis

def number : SampleHeader → UInt64
  | genesis => 0
  | one => 1
  | two => 2
  | fork => 1

def timestamp : SampleHeader → UInt64
  | genesis => 10
  | one => 11
  | two => 12
  | fork => 11

/-- The block digest of the header. -/
def digest (h : SampleHeader) : Digest := ⟨h.hash⟩

def ofCode : UInt8 → Option SampleHeader
  | 1 => some genesis
  | 2 => some one
  | 3 => some two
  | 4 => some fork
  | _ => none

theorem hash_injective : Function.Injective hash := by
  intro a b
  cases a <;> cases b <;> decide

end SampleHeader

/-- Alloy over the small chain: a block is one byte on the wire. -/
def sampleAlloy : Alloy where
  Header := SampleHeader
  Body := Unit
  parentHash := fun h => h.parent.hash
  number := SampleHeader.number
  timestamp := SampleHeader.timestamp
  hashSlow := SampleHeader.hash
  encode := fun b => [b.header.code]
  decode := fun
    | [] => .error "input too short"
    | c :: rest => match SampleHeader.ofCode c with
      | some h => .ok (⟨h, ()⟩, rest)
      | none => .error "unexpected byte"
  printable := fun _ => true

theorem sampleAlloy_collisionFree : sampleAlloy.CollisionFree :=
  SampleHeader.hash_injective

theorem sampleAlloy_roundTrips : sampleAlloy.RoundTrips := by
  rintro ⟨h, ⟨⟩⟩
  cases h <;> rfl

theorem sampleAlloy_nonZero : sampleAlloy.NonZero := by
  intro h
  change SampleHeader.hash h ≠ B256.ZERO
  cases h <;> decide

end Allegro
