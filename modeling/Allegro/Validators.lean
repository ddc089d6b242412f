import Allegro.Primitives

/-!
# The validator set

`crates/consensus/src/validators.rs`: the map from a validator's public key to
its p2p addresses.
-/

namespace Allegro

inductive IpAddr
  | v4 (bits : BitVec 32)
  | v6 (bits : BitVec 128)
deriving DecidableEq

/-- `std::net::SocketAddr`. -/
inductive SocketAddr
  | v4 (bits : BitVec 32) (port : UInt16)
  | v6 (bits : BitVec 128) (port : UInt16) (flowinfo scopeId : UInt32)
deriving DecidableEq

namespace SocketAddr

def ip : SocketAddr → IpAddr
  | v4 bits _ => .v4 bits
  | v6 bits _ _ _ => .v6 bits

/-- `SocketAddr::from((ip, port))`. -/
def ofIp : IpAddr → UInt16 → SocketAddr
  | .v4 bits, port => v4 bits port
  | .v6 bits, port => v6 bits port 0 0

/-- `127.0.0.1` with the given port. -/
def localhost (port : UInt16) : SocketAddr := v4 0x7f000001 port

end SocketAddr

/-- `Address::Asymmetric` with a socket ingress, the only form the node builds. -/
structure Address where
  ingress : SocketAddr
  egress : SocketAddr
deriving DecidableEq

structure ValidatorEntry where
  publicKey : PublicKey
  ingress : SocketAddr
  egress : IpAddr
deriving DecidableEq

abbrev ValidatorSet := HashMap PublicKey Address

/-- The address recorded for an entry: the egress keeps the IP, with port 0. -/
def ValidatorEntry.address (entry : ValidatorEntry) : Address where
  ingress := entry.ingress
  egress := .ofIp entry.egress 0

/-- `ValidatorSet::from_entries`: a later entry replaces an earlier one with the same key. -/
def ValidatorSet.fromEntries (entries : List ValidatorEntry) : ValidatorSet :=
  entries.foldl (fun map entry => map.insert entry.publicKey entry.address) ∅

namespace ValidatorSet

theorem fromEntries_concat (entries : List ValidatorEntry) (entry : ValidatorEntry) :
    fromEntries (entries ++ [entry]) =
      (fromEntries entries).insert entry.publicKey entry.address := by
  rw [fromEntries, List.foldl_append]
  rfl

/-- The keys of the set are the keys of the entries. -/
theorem mem_fromEntries {entries : List ValidatorEntry} {key : PublicKey} :
    key ∈ fromEntries entries ↔ key ∈ entries.map ValidatorEntry.publicKey := by
  induction entries using List.reverseRecOn with
  | nil => exact ⟨fun h => absurd h Finmap.notMem_empty, fun h => (nomatch h)⟩
  | append_singleton entries entry ih =>
    rw [fromEntries_concat, Finmap.mem_insert, ih, List.map_append, List.mem_append, or_comm]
    simp

/-- Without a repeated key, every entry keeps its address. -/
theorem lookup_fromEntries {entries : List ValidatorEntry}
    (hnodup : (entries.map ValidatorEntry.publicKey).Nodup) {entry : ValidatorEntry}
    (hmem : entry ∈ entries) :
    (fromEntries entries).lookup entry.publicKey = some entry.address := by
  induction entries using List.reverseRecOn with
  | nil => exact nomatch hmem
  | append_singleton entries last ih =>
    rw [List.map_append, List.nodup_append] at hnodup
    obtain ⟨hold, -, hnew⟩ := hnodup
    rw [fromEntries_concat]
    rcases List.mem_append.mp hmem with hmem | hmem
    · have hne : entry.publicKey ≠ last.publicKey :=
        hnew _ (List.mem_map_of_mem hmem) _ (List.mem_singleton_self _)
      rw [Finmap.lookup_insert_of_ne _ hne]
      exact ih hold hmem
    · obtain rfl := List.mem_singleton.mp hmem
      exact Finmap.lookup_insert _

theorem keys_fromEntries (entries : List ValidatorEntry) :
    (fromEntries entries).keys = (entries.map ValidatorEntry.publicKey).toFinset := by
  ext key
  rw [Finmap.mem_keys, mem_fromEntries, List.mem_toFinset]

/-- There are at most as many validators as entries. -/
theorem card_fromEntries_le (entries : List ValidatorEntry) :
    (fromEntries entries).keys.card ≤ entries.length := by
  rw [keys_fromEntries, ← List.length_map (f := ValidatorEntry.publicKey)]
  exact List.toFinset_card_le _

/-- Without a repeated key, there are as many validators as entries. -/
theorem card_fromEntries {entries : List ValidatorEntry}
    (hnodup : (entries.map ValidatorEntry.publicKey).Nodup) :
    (fromEntries entries).keys.card = entries.length := by
  rw [keys_fromEntries, List.toFinset_card_of_nodup hnodup, List.length_map]

/-! ### The validators of a devnet -/

/-- The entries of validators on the given sockets: the key of validator `i` is that
of the seed `i`. -/
def devnetEntries (keyOf : UInt64 → PublicKey) (sockets : List SocketAddr) : List ValidatorEntry :=
  sockets.mapIdx fun i socket => ⟨keyOf (UInt64.ofNat i), socket, socket.ip⟩

/-- The set has one validator for each socket: the key of seed `i`, reached at socket
`i` and dialling from its IP. -/
def IsDevnet (keyOf : UInt64 → PublicKey) (sockets : List SocketAddr) (set : ValidatorSet) : Prop :=
  set.keys.card = sockets.length ∧
    ∀ key address, set.lookup key = some address ↔
      ∃ i, ∃ h : i < sockets.length, key = keyOf (UInt64.ofNat i) ∧
        address = ⟨sockets[i], .ofIp sockets[i].ip 0⟩

variable {keyOf : UInt64 → PublicKey} {sockets : List SocketAddr}

theorem mem_devnetEntries {entry : ValidatorEntry} :
    entry ∈ devnetEntries keyOf sockets ↔
      ∃ i, ∃ h : i < sockets.length, entry = ⟨keyOf (UInt64.ofNat i), sockets[i], sockets[i].ip⟩ := by
  rw [devnetEntries, List.mem_mapIdx]
  constructor
  · rintro ⟨i, h, rfl⟩
    exact ⟨i, h, rfl⟩
  · rintro ⟨i, h, rfl⟩
    exact ⟨i, h, rfl⟩

theorem devnetEntries_nodup
    (hinj : ∀ i < sockets.length, ∀ j < sockets.length,
      keyOf (UInt64.ofNat i) = keyOf (UInt64.ofNat j) → i = j) :
    ((devnetEntries keyOf sockets).map ValidatorEntry.publicKey).Nodup := by
  rw [devnetEntries, List.nodup_iff_injective_getElem]
  intro ⟨i, hi⟩ ⟨j, hj⟩ heq
  simp only [List.length_map, List.length_mapIdx] at hi hj
  simp only [List.getElem_map, List.getElem_mapIdx] at heq
  exact Fin.ext (hinj i hi j hj heq)

/-- Seeds with distinct keys, counted by a `u64`. -/
theorem seeds_distinct (hinj : Function.Injective keyOf) {n : Nat} (hn : n ≤ 2 ^ 64) :
    ∀ i < n, ∀ j < n, keyOf (UInt64.ofNat i) = keyOf (UInt64.ofNat j) → i = j := by
  intro i hi j hj heq
  have hsize : UInt64.size = 2 ^ 64 := rfl
  have hcast := congrArg UInt64.toNat (hinj heq)
  rwa [UInt64.toNat_ofNat_of_lt' (by omega), UInt64.toNat_ofNat_of_lt' (by omega)] at hcast

/-- The set of those entries, if no two of the seeds have the same key. -/
theorem isDevnet_fromEntries
    (hinj : ∀ i < sockets.length, ∀ j < sockets.length,
      keyOf (UInt64.ofNat i) = keyOf (UInt64.ofNat j) → i = j) :
    IsDevnet keyOf sockets (fromEntries (devnetEntries keyOf sockets)) := by
  have hnodup := devnetEntries_nodup hinj
  refine ⟨?_, fun key address => ⟨fun hlookup => ?_, ?_⟩⟩
  · rw [card_fromEntries hnodup, devnetEntries, List.length_mapIdx]
  · have hkey : key ∈ fromEntries (devnetEntries keyOf sockets) :=
      Finmap.mem_of_lookup_eq_some hlookup
    obtain ⟨entry, hmem, rfl⟩ := List.mem_map.mp (mem_fromEntries.mp hkey)
    rw [lookup_fromEntries hnodup hmem] at hlookup
    obtain ⟨i, hi, rfl⟩ := mem_devnetEntries.mp hmem
    cases hlookup
    exact ⟨i, hi, rfl, rfl⟩
  · rintro ⟨i, hi, rfl, rfl⟩
    exact lookup_fromEntries hnodup (mem_devnetEntries.mpr ⟨i, hi, rfl⟩)

end ValidatorSet

/-! ## The validator of the small chain -/

def sampleKey : PublicKey := PublicKey.repeatByte 7

/-- A validator set of one. -/
def sampleValidators : ValidatorSet :=
  ValidatorSet.fromEntries [⟨sampleKey, .v4 0 3000, .v4 0⟩]

end Allegro
