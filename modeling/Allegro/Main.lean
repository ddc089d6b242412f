import Allegro.Validators
import Allegro.Lib.Fallible

/-!
# The node binary

`bin/allegro/src/main.rs`: the `--consensus.*` flags that decide who validates,
`build_validator_set`, and the choice of signing scheme in `start_simplex_engine`
(`crates/consensus/src/engine.rs`).

`build_validator_set` indexes the list of peers and counts in `u8`; what the code
does by panicking is an error here.
-/

namespace Allegro

open Fallible (bind_eq_ok mapM_eq_ok)

/-- The consensus flags: this validator's index, its listen address and its peers. -/
structure ConsensusArgs where
  node : UInt8
  listen : Option SocketAddr
  peers : List SocketAddr
deriving DecidableEq

inductive Panic
  /-- "listen address resolved at startup" -/
  | listenUnresolved
  /-- "index out of bounds" -/
  | indexOutOfBounds (index len : Nat)
  /-- "attempt to add with overflow" -/
  | addOverflow
deriving DecidableEq

/-- Addition of `u8`. An overflow panics with overflow checks (a debug build) and wraps
without. -/
def addU8 (overflowChecks : Bool) (a b : UInt8) : Except Panic UInt8 :=
  if overflowChecks ∧ 255 < a.toNat + b.toNat then .error .addOverflow else .ok (a + b)

namespace ConsensusArgs

/-- `resolve_listen`: a free local port in dev mode, port 3000 of every interface else. -/
def resolveListen (dev : Bool) (args : ConsensusArgs) : ConsensusArgs :=
  match args.listen with
  | some _ => args
  | none => { args with listen := some (if dev then .localhost 0 else .v4 0 3000) }

/-- `listen()`. -/
def getListen (args : ConsensusArgs) : Except Panic SocketAddr :=
  match args.listen with
  | some addr => .ok addr
  | none => .error .listenUnresolved

/-- `args.peers[i]`. -/
def peer (args : ConsensusArgs) (i : Nat) : Except Panic SocketAddr :=
  match args.peers[i]? with
  | some addr => .ok addr
  | none => .error (.indexOutOfBounds i args.peers.length)

/-- The address of validator `i`: this node's own, or that of a peer, whose list leaves
this node out. -/
def address (args : ConsensusArgs) (i : Nat) : Except Panic SocketAddr :=
  if i = args.node.toNat then args.getListen
  else if i < args.node.toNat then args.peer i
  else args.peer (i - 1)

/-- The entry of validator `i`. -/
def entry (keyOf : UInt64 → PublicKey) (args : ConsensusArgs) (i : Nat) :
    Except Panic ValidatorEntry := do
  let addr ← args.address i
  .ok ⟨keyOf (UInt64.ofNat i), addr, addr.ip⟩

end ConsensusArgs

/-- `build_validator_set`: the validators of the genesis, or one for each flag. -/
def buildValidatorSet (overflowChecks : Bool) (keyOf : UInt64 → PublicKey) (args : ConsensusArgs)
    (genesisValidators : ValidatorSet) : Except Panic ValidatorSet :=
  if genesisValidators.keys ≠ ∅ then .ok genesisValidators
  else do
    let numValidators ← addU8 overflowChecks 1 (UInt8.ofNat args.peers.length)
    let entries ← (List.range numValidators.toNat).mapM (args.entry keyOf)
    .ok (ValidatorSet.fromEntries entries)

/-- The scheme of the engine: with a share in the votes or without. -/
inductive Scheme
  | signer
  | verifier
deriving DecidableEq

/-- The scheme `start_simplex_engine` picks. `Scheme::signer` is `None` for a key that is
not a participant; no validators at all is an error. -/
def signingScheme (validators : ValidatorSet) (key : PublicKey) : Option Scheme :=
  if validators.keys = ∅ then none
  else if key ∈ validators then some .signer
  else some .verifier

/-! ## From flags to validators -/

variable {keyOf : UInt64 → PublicKey} {args : ConsensusArgs} {addrs : List SocketAddr}

/-- With its own address left out of the list of peers, a node has every address in its
place. -/
theorem ConsensusArgs.address_eq {i : Nat} (hi : i < addrs.length)
    (hlisten : args.listen = addrs[args.node.toNat]?)
    (hpeers : args.peers = addrs.eraseIdx args.node.toNat) :
    args.address i = .ok addrs[i] := by
  unfold address getListen peer
  rw [hlisten, hpeers]
  split
  · next heq => rw [← heq, List.getElem?_eq_getElem hi]
  · next hne =>
    split
    · next hlt => rw [List.getElem?_eraseIdx_of_lt hlt, List.getElem?_eq_getElem hi]
    · next hge =>
      have hpred : i - 1 + 1 = i := by omega
      rw [List.getElem?_eraseIdx_of_ge (by omega)]
      simp only [hpred, List.getElem?_eq_getElem hi]

theorem addU8_ok (overflowChecks : Bool) {n : Nat} (hpos : 0 < n) (hn : n ≤ 255) :
    addU8 overflowChecks 1 (UInt8.ofNat (n - 1)) = .ok (UInt8.ofNat n) := by
  have hsize : UInt8.size = 256 := rfl
  have hcast : (UInt8.ofNat (n - 1)).toNat = n - 1 := UInt8.toNat_ofNat_of_lt' (by omega)
  have hone : (1 : UInt8).toNat = 1 := rfl
  have hsum : 1 + UInt8.ofNat (n - 1) = UInt8.ofNat n := by
    rw [← UInt8.toNat_inj, UInt8.toNat_add, hcast, hone, UInt8.toNat_ofNat_of_lt' (by omega)]
    omega
  rw [addU8, if_neg (by rw [hcast, hone]; omega), hsum]

/-- Every node whose flags leave its own address out of the common list derives the
entries of that list. -/
theorem buildValidatorSet_of_flags (overflowChecks : Bool) (hlen : addrs.length ≤ 255)
    (hnode : args.node.toNat < addrs.length)
    (hlisten : args.listen = addrs[args.node.toNat]?)
    (hpeers : args.peers = addrs.eraseIdx args.node.toNat) :
    buildValidatorSet overflowChecks keyOf args ∅ =
      .ok (ValidatorSet.fromEntries (ValidatorSet.devnetEntries keyOf addrs)) := by
  have hsize : UInt8.size = 256 := rfl
  have hcount : args.peers.length = addrs.length - 1 := by
    rw [hpeers, List.length_eraseIdx_of_lt hnode]
  have hnum : (UInt8.ofNat addrs.length).toNat = addrs.length :=
    UInt8.toNat_ofNat_of_lt' (by omega)
  have hentries : (List.range addrs.length).mapM (args.entry keyOf) =
      .ok (ValidatorSet.devnetEntries keyOf addrs) := by
    rw [mapM_eq_ok, List.forall₂_iff_get]
    refine ⟨by rw [List.length_range, ValidatorSet.devnetEntries, List.length_mapIdx], ?_⟩
    intro i hi hi'
    have hi : i < addrs.length := by rwa [List.length_range] at hi
    simp only [List.get_eq_getElem, List.getElem_range, ValidatorSet.devnetEntries,
      List.getElem_mapIdx]
    exact bind_eq_ok.mpr ⟨addrs[i], ConsensusArgs.address_eq hi hlisten hpeers, rfl⟩
  rw [buildValidatorSet, if_neg (not_not.mpr Finmap.keys_empty), hcount,
    addU8_ok overflowChecks (by omega) hlen]
  show ((List.range (UInt8.ofNat addrs.length).toNat).mapM (args.entry keyOf) >>= _) = _
  rw [hnum, hentries]
  rfl

/-! ## What a derived set says about the flags -/

/-- A set that was derived has an entry for each index below the count, as `u8`
arithmetic gives it. -/
theorem buildValidatorSet_eq_ok {overflowChecks : Bool} {set : ValidatorSet}
    (h : buildValidatorSet overflowChecks keyOf args ∅ = .ok set) :
    ∃ entries, List.Forall₂ (fun i entry => args.entry keyOf i = .ok entry)
        (List.range (1 + UInt8.ofNat args.peers.length).toNat) entries ∧
      set = ValidatorSet.fromEntries entries := by
  rw [buildValidatorSet, if_neg (not_not.mpr Finmap.keys_empty)] at h
  obtain ⟨num, hnum, h⟩ := bind_eq_ok.mp h
  obtain ⟨entries, hentries, h⟩ := bind_eq_ok.mp h
  have hsum : num = 1 + UInt8.ofNat args.peers.length := by
    unfold addU8 at hnum
    split at hnum
    · cases hnum
    · cases hnum
      rfl
  cases h
  rw [hsum] at hentries
  exact ⟨entries, mapM_eq_ok.mp hentries, rfl⟩

/-- A node whose index is past its peers has no peer for the index after the last. -/
theorem ConsensusArgs.entry_past_peers (h : args.peers.length < args.node.toNat)
    (entry : ValidatorEntry) : args.entry keyOf args.peers.length ≠ .ok entry := by
  intro hentry
  obtain ⟨addr, haddr, _⟩ := bind_eq_ok.mp hentry
  rw [address, if_neg (Nat.ne_of_lt h), if_pos h, peer, List.getElem?_eq_none (Nat.le_refl _)] at haddr
  cases haddr

end Allegro
