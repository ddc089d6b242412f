import Allegro.GenesisReload
import Allegro.Main

/-!
# Launching a devnet

Two ways into a devnet. With a generated genesis, each node is launched by the
command the generator printed for it: the validator's index goes through a
decimal flag into a `u8` and from there into the seed of its key. Without one, each
node is given its own address and those of its peers.

1. `nodeIndex_parsed`: which indices the flag admits.
2. `generated_validators_join_iff`: the validators of a run all join exactly if
   there are at most 256 of them.
3. `flags_derive_one_set`: every node derives the same set from its own flags.
4. `derived_set_contains_node_iff`: for which flags a node derives a set with
   itself and all its peers in it.
-/

namespace Allegro

variable {ChainSpec : Type}

/-! ## Launch commands -/

/-- The flags of a launch command, as `clap` parses them. -/
def LaunchCommand.parse (L : Libs ChainSpec) (c : LaunchCommand) : Option ConsensusArgs := do
  let node ← Text.parseUnsigned 255 c.nodeIndex
  let listen ← L.parseSocket c.listenAddress
  some ⟨UInt8.ofNat node, some listen, []⟩

/-- The node launched by `c` is the validator `v`: the flags are admitted, the genesis
loads, the key of its index is the one of `v` and is in the set, so it signs. -/
def LaunchCommand.Joins (L : Libs ChainSpec) (overflowChecks : Bool) (fs : Fs) (c : LaunchCommand)
    (v : ValidatorOutput) : Prop :=
  ∃ args spec genesisValidators validators,
    c.parse L = some args ∧
    loadChainWithValidators L fs c.chain = .ok (spec, genesisValidators) ∧
    buildValidatorSet overflowChecks L.publicKeyOfSeed (args.resolveListen false)
      genesisValidators = .ok validators ∧
    L.hexEncode (L.publicKeyOfSeed args.node.toUInt64).bytes = v.publicKey ∧
    L.publicKeyOfSeed args.node.toUInt64 ∈ validators ∧
    signingScheme validators (L.publicKeyOfSeed args.node.toUInt64) = some .signer

/-- The number of validators asked for. -/
def GenesisCmd.requested (cmd : GenesisCmd) : Nat :=
  match Text.parseUnsigned 65535 cmd.validators with
  | some n => n
  | none => (Text.split ',' cmd.validators).length

namespace LaunchLemmas

open GenesisReloadLemmas Fallible

variable {L : Libs ChainSpec} {cmd : GenesisCmd}

theorem sockets_length {sockets : List String} (h : cmd.sockets L = .ok sockets) :
    sockets.length = cmd.requested := by
  revert h
  unfold GenesisCmd.sockets GenesisCmd.requested
  cases Text.parseUnsigned 65535 cmd.validators with
  | some n =>
    intro h
    simp only at h ⊢
    split at h
    · exact nomatch h
    · cases h
      rw [List.length_map, List.length_range]
  | none =>
    intro h
    exact (mapM_eq_ok.mp h).length_eq.symm

theorem sockets_of_count {n : Nat} (hcount : Text.parseUnsigned 65535 cmd.validators = some n)
    (hports : cmd.basePort.toNat + n ≤ 65536) :
    cmd.sockets L = .ok ((List.range n).map fun i =>
      "127.0.0.1:" ++ Text.decimal (cmd.basePort + UInt16.ofNat i).toNat) := by
  unfold GenesisCmd.sockets
  rw [hcount]
  exact if_neg (by omega)

theorem exists_validator {sockets : List String} {i : Nat} (hi : i < sockets.length) :
    ∃ v ∈ GenesisCmd.validatorOutputs L sockets, v.index = UInt16.ofNat i :=
  ⟨GenesisCmd.validatorOutput L (UInt16.ofNat i) sockets[i], List.mem_mapIdx.mpr ⟨i, hi, rfl⟩, rfl⟩

/-- The flag admits the printed index exactly if it fits in a `u8`. -/
theorem nodeIndex_parsed (v : ValidatorOutput) :
    Text.parseUnsigned 255 (cmd.launchCommand v).nodeIndex =
      if v.index.toNat ≤ 255 then some v.index.toNat else none :=
  Text.parseUnsigned_decimal 255 v.index.toNat

/-- Validator 256 cannot be launched. -/
theorem not_joins_256 {checks : Bool} {fs : Fs} {v : ValidatorOutput} (hindex : v.index = 256) :
    Text.parseUnsigned 255 (cmd.launchCommand v).nodeIndex = none ∧
      ¬ (cmd.launchCommand v).Joins L checks fs v := by
  have hnone : Text.parseUnsigned 255 (cmd.launchCommand v).nodeIndex = none := by
    rw [nodeIndex_parsed, hindex]
    decide
  refine ⟨hnone, ?_⟩
  rintro ⟨args, -, -, -, hparse, -⟩
  unfold LaunchCommand.parse at hparse
  rw [hnone] at hparse
  exact nomatch hparse

/-- The casts of a small index, through `u8` and through `u16`. -/
theorem seed_of_small {i : Nat} (hi : i ≤ 255) :
    (UInt8.ofNat i).toUInt64 = UInt64.ofNat i ∧ (UInt16.ofNat i).toNat = i := by
  have h8 : UInt8.size = 256 := rfl
  have h16 : UInt16.size = 65536 := rfl
  have h64 : UInt64.size = 2 ^ 64 := rfl
  refine ⟨?_, UInt16.toNat_ofNat_of_lt' (by omega)⟩
  rw [← UInt64.toNat_inj, UInt8.toNat_toUInt64, UInt8.toNat_ofNat_of_lt' (by omega),
    UInt64.toNat_ofNat_of_lt' (by omega)]

/-- A validator of the set that the genesis gives is the validator it is launched as. -/
theorem joins_of_small {checks : Bool} {fs : Fs} {sockets : List String} {addrs : List SocketAddr}
    {spec : ChainSpec}
    (hparse : List.Forall₂ (fun s addr => L.parseSocket s = some addr) sockets addrs)
    (hload : loadChainWithValidators L fs cmd.genesisPath =
      .ok (spec, ValidatorSet.fromEntries (ValidatorSet.devnetEntries L.publicKeyOfSeed addrs)))
    {i : Nat} (hi : i < sockets.length) (hsmall : i ≤ 255) :
    (cmd.launchCommand (GenesisCmd.validatorOutput L (UInt16.ofNat i) sockets[i])).Joins L checks fs
      (GenesisCmd.validatorOutput L (UInt16.ofNat i) sockets[i]) := by
  obtain ⟨hseed, hindex⟩ := seed_of_small hsmall
  have hi' : i < addrs.length := hparse.length_eq ▸ hi
  have hsocket : L.parseSocket sockets[i] = some addrs[i] :=
    (List.forall₂_iff_get.mp hparse).2 i hi hi'
  have hmem : L.publicKeyOfSeed (UInt64.ofNat i) ∈
      ValidatorSet.fromEntries (ValidatorSet.devnetEntries L.publicKeyOfSeed addrs) :=
    ValidatorSet.mem_fromEntries.mpr (List.mem_map.mpr
      ⟨_, ValidatorSet.mem_devnetEntries.mpr ⟨i, hi', rfl⟩, rfl⟩)
  have hkeys : (ValidatorSet.fromEntries
      (ValidatorSet.devnetEntries L.publicKeyOfSeed addrs)).keys ≠ ∅ :=
    Finset.ne_empty_of_mem (Finmap.mem_keys.mpr hmem)
  refine ⟨⟨UInt8.ofNat i, some addrs[i], []⟩, spec, _, _, ?_, hload, if_pos hkeys, ?_, ?_, ?_⟩
  · unfold LaunchCommand.parse
    rw [nodeIndex_parsed]
    show ((if (UInt16.ofNat i).toNat ≤ 255 then some (UInt16.ofNat i).toNat else none).bind
      fun node => (L.parseSocket sockets[i]).bind fun listen =>
        some (ConsensusArgs.mk (UInt8.ofNat node) (some listen) [])) = _
    rw [hindex, if_pos hsmall, hsocket]
    rfl
  · show L.hexEncode (L.publicKeyOfSeed (UInt8.ofNat i).toUInt64).bytes =
      L.hexEncode (L.publicKeyOfSeed (UInt16.ofNat i).toUInt64).bytes
    rw [hseed, toUInt64_ofNat (by omega)]
  · show L.publicKeyOfSeed (UInt8.ofNat i).toUInt64 ∈ _
    rw [hseed]
    exact hmem
  · show signingScheme _ (L.publicKeyOfSeed (UInt8.ofNat i).toUInt64) = _
    rw [hseed, signingScheme, if_neg hkeys, if_pos hmem]

end LaunchLemmas

open LaunchLemmas GenesisReloadLemmas

/-- Whenever `GenesisCmd::run` succeeds, it prints one launch command for each validator it
emits, and all of them can join by these commands exactly if at most 256 were
asked for. -/
theorem generated_validators_join_iff (L : Libs ChainSpec) (cmd : GenesisCmd)
    (hL : L.ReadsBack cmd) (overflowChecks : Bool) (fs : Fs) (out : GenesisOutput)
    (hrun : cmd.run L fs = .ok out) :
    out.launch = out.validators.map cmd.launchCommand ∧
      ((∀ v ∈ out.validators, (cmd.launchCommand v).Joins L overflowChecks out.fs v) ↔
        cmd.requested ≤ 256) := by
  obtain ⟨sockets, addrs, accounts, hsockets, -, hparse, hlen, hvalidators, hlaunch, hload⟩ :=
    load_written hL hrun
  refine ⟨hlaunch, ?_⟩
  rw [hvalidators, ← sockets_length hsockets]
  constructor
  · intro hjoins
    refine Nat.le_of_not_lt fun hmany => ?_
    obtain ⟨v, hv, hindex⟩ := exists_validator hmany
    exact (not_joins_256 hindex).2 (hjoins v hv)
  · intro hfew v hv
    obtain ⟨i, hi, rfl⟩ := List.mem_mapIdx.mp hv
    exact joins_of_small hparse hload hi (by omega)

open LocalDevnet

/-- Both validators of the small devnet join. -/
theorem two_validators_join :
    (libs twoValidators).ReadsBack twoValidators ∧ ∃ out,
      twoValidators.run (libs twoValidators) emptyFs = .ok out ∧
      ∀ v ∈ out.validators, (twoValidators.launchCommand v).Joins (libs twoValidators) true out.fs v := by
  have hrun := run_ok twoValidators_sockets (by decide)
  have hlaw := generated_validators_join_iff _ twoValidators (libs_readsBack _) true _ _ hrun
  exact ⟨libs_readsBack _, _, hrun, hlaw.2.mpr (by decide)⟩

/-- One validator more than a `u8` has values. -/
def manyValidators : GenesisCmd := ⟨"257", 13000, 1337, "./devnet"⟩

/-- The generator accepts the count. Validator 256 is launched with an index the flag does
not admit. -/
theorem validator_256_cannot_join :
    (libs manyValidators).ReadsBack manyValidators ∧ ∃ out,
      manyValidators.run (libs manyValidators) emptyFs = .ok out ∧
      ∃ v ∈ out.validators, v.index = 256 ∧
        Text.parseUnsigned 255 (manyValidators.launchCommand v).nodeIndex = none ∧
        ¬ (manyValidators.launchCommand v).Joins (libs manyValidators) true out.fs v := by
  have hcount : Text.parseUnsigned 65535 manyValidators.validators = some 257 := by decide
  obtain ⟨sockets, hsockets⟩ : ∃ sockets, manyValidators.sockets writerLibs = .ok sockets :=
    ⟨_, sockets_of_count hcount (by decide)⟩
  have hlen : sockets.length = 257 := by
    rw [sockets_length hsockets, GenesisCmd.requested, hcount]
  have hrun := run_ok hsockets (by omega)
  obtain ⟨v, hv, hindex⟩ := exists_validator (L := libs manyValidators) (i := 256)
    (hlen ▸ Nat.lt_succ_self 256 : 256 < sockets.length)
  exact ⟨libs_readsBack _, _, hrun, v, hv, hindex, not_joins_256 hindex⟩

/-! ## Flags -/

/-- Every node of a devnet of at most 255 addresses, launched with its own address to listen
on and the others as peers, in their order, derives the same set: the key of seed
`i` at address `i`, in debug and in release builds. -/
theorem flags_derive_one_set (overflowChecks : Bool) (keyOf : UInt64 → PublicKey)
    (addrs : List SocketAddr) (hlen : addrs.length ≤ 255)
    (hseed : ∀ i < addrs.length, ∀ j < addrs.length,
      keyOf (UInt64.ofNat i) = keyOf (UInt64.ofNat j) → i = j) :
    ∃ set : ValidatorSet, set.IsDevnet keyOf addrs ∧
      ∀ args : ConsensusArgs, (h : args.node.toNat < addrs.length) →
        args.listen = some addrs[args.node.toNat] →
        args.peers = addrs.eraseIdx args.node.toNat →
        buildValidatorSet overflowChecks keyOf args ∅ = .ok set := by
  refine ⟨_, ValidatorSet.isDevnet_fromEntries hseed, fun args hnode hlisten hpeers => ?_⟩
  refine buildValidatorSet_of_flags overflowChecks hlen hnode ?_ hpeers
  rw [hlisten, List.getElem?_eq_getElem hnode]

/-- Three local nodes, as the second of them sees them. -/
theorem three_nodes_derive_one_set :
    let addrs : List SocketAddr := [.localhost 3000, .localhost 3001, .localhost 3002]
    addrs.length ≤ 255 ∧ ∃ set : ValidatorSet, set.IsDevnet publicKeyOfSeed addrs ∧
      buildValidatorSet true publicKeyOfSeed
        ⟨1, some (.localhost 3001), [.localhost 3000, .localhost 3002]⟩ ∅ = .ok set := by
  intro addrs
  obtain ⟨set, hset, hnodes⟩ := flags_derive_one_set true publicKeyOfSeed addrs (by decide)
    (ValidatorSet.seeds_distinct publicKeyOfSeed_injective (by decide))
  exact ⟨by decide, set, hset, hnodes _ (by decide) rfl rfl⟩

namespace LaunchLemmas

theorem toUInt64_node (node : UInt8) : node.toUInt64 = UInt64.ofNat node.toNat := by
  have h := (seed_of_small (i := node.toNat) (Nat.le_of_lt_succ node.toNat_lt)).1
  rwa [UInt8.ofNat_toNat] at h

/-- The flags of a node with its own address in its place among the peers. -/
theorem derived_of_flags (checks : Bool) (keyOf : UInt64 → PublicKey) {args : ConsensusArgs}
    {addr : SocketAddr} (hlisten : args.listen = some addr)
    (hnode : args.node.toNat ≤ args.peers.length) (hpeers : args.peers.length ≤ 254) :
    ∃ addrs : List SocketAddr, addrs.length = args.peers.length + 1 ∧
      addrs[args.node.toNat]? = some addr ∧
      buildValidatorSet checks keyOf args ∅ =
        .ok (ValidatorSet.fromEntries (ValidatorSet.devnetEntries keyOf addrs)) := by
  have hlen := List.length_insertIdx_of_le_length hnode addr
  have hself : (args.peers.insertIdx args.node.toNat addr)[args.node.toNat]? = some addr := by
    rw [List.getElem?_insertIdx_self, if_pos hnode]
  refine ⟨args.peers.insertIdx args.node.toNat addr, hlen, hself, ?_⟩
  exact buildValidatorSet_of_flags checks (by omega) (by omega) (hlisten.trans hself.symm)
    (List.eraseIdx_insertIdx_self addr).symm

/-- The count of the loop is at most 255. -/
theorem count_le (n : Nat) : (1 + UInt8.ofNat n).toNat ≤ 255 :=
  Nat.le_of_lt_succ (UInt8.toNat_lt _)

theorem count_eq {n : Nat} (h : n ≤ 254) : (1 + UInt8.ofNat n).toNat = n + 1 := by
  have hsize : UInt8.size = 256 := rfl
  have hone : (1 : UInt8).toNat = 1 := rfl
  rw [UInt8.toNat_add, UInt8.toNat_ofNat_of_lt' (by omega), hone]
  omega

end LaunchLemmas

/-- `build_validator_set` without genesis validators returns a set of one validator
more than there are peers, in which the key that the node signs with is at its
listen address. -/
def DerivesNode (overflowChecks : Bool) (keyOf : UInt64 → PublicKey) (args : ConsensusArgs)
    (addr : SocketAddr) : Prop :=
  ∃ set : ValidatorSet, buildValidatorSet overflowChecks keyOf args ∅ = .ok set ∧
    set.keys.card = args.peers.length + 1 ∧
    set.lookup (keyOf args.node.toUInt64) = some ⟨addr, .ofIp addr.ip 0⟩

/-- For every node index, every list of peers and a listen address, in debug and in
release builds, over seeds with distinct keys: the set is derived exactly if the
index is at most the number of peers and there are at most 254 of them. -/
theorem derived_set_contains_node_iff (overflowChecks : Bool) (keyOf : UInt64 → PublicKey)
    (hseed : ∀ i < 256, ∀ j < 256, keyOf (UInt64.ofNat i) = keyOf (UInt64.ofNat j) → i = j)
    (args : ConsensusArgs) (addr : SocketAddr) (hlisten : args.listen = some addr) :
    DerivesNode overflowChecks keyOf args addr ↔
      args.node.toNat ≤ args.peers.length ∧ args.peers.length ≤ 254 := by
  constructor
  · rintro ⟨set, hset, hcard, _⟩
    obtain ⟨entries, hentries, rfl⟩ := buildValidatorSet_eq_ok hset
    have hlen := hentries.length_eq
    rw [List.length_range] at hlen
    have hle := ValidatorSet.card_fromEntries_le entries
    have hcount := count_le args.peers.length
    have hpeers : args.peers.length ≤ 254 := by omega
    refine ⟨Nat.le_of_not_lt fun hpast => ?_, hpeers⟩
    -- the loop reaches the index after the last peer
    rw [count_eq hpeers] at hlen hentries
    have hlast := (List.forall₂_iff_get.mp hentries).2 args.peers.length (by simp) (by omega)
    simp only [List.get_eq_getElem, List.getElem_range] at hlast
    exact ConsensusArgs.entry_past_peers hpast _ hlast
  · rintro ⟨hnode, hpeers⟩
    obtain ⟨addrs, hlen, hself, hset⟩ :=
      derived_of_flags overflowChecks keyOf hlisten hnode hpeers
    have hdevnet : (ValidatorSet.fromEntries (ValidatorSet.devnetEntries keyOf addrs)).IsDevnet
        keyOf addrs :=
      ValidatorSet.isDevnet_fromEntries fun i hi j hj => hseed i (by omega) j (by omega)
    obtain ⟨hlt, haddr⟩ := List.getElem?_eq_some_iff.mp hself
    refine ⟨_, hset, hdevnet.1.trans hlen, ?_⟩
    refine (hdevnet.2 _ _).mpr ⟨args.node.toNat, hlt, ?_, ?_⟩
    · rw [toUInt64_node]
    · rw [haddr]

/-- The second of three local nodes. -/
theorem second_of_three_derived :
    DerivesNode true publicKeyOfSeed
      ⟨1, some (.localhost 3001), [.localhost 3000, .localhost 3002]⟩ (.localhost 3001) :=
  (derived_set_contains_node_iff true publicKeyOfSeed
    (ValidatorSet.seeds_distinct publicKeyOfSeed_injective (by decide))
    ⟨1, some (.localhost 3001), [.localhost 3000, .localhost 3002]⟩ (.localhost 3001) rfl).mpr
    ⟨by decide, by decide⟩

namespace LaunchLemmas

/-- A node with an index past its peers. -/
def pastPeers : ConsensusArgs := ⟨1, some (.localhost 3001), []⟩

/-- A node with one peer more than a `u8` can count beside itself. -/
def manyPeers : ConsensusArgs :=
  ⟨0, some (.localhost 3000), List.replicate 255 (.localhost 3001)⟩

end LaunchLemmas

/-- An index past the peers panics. With 255 peers a debug build panics, and a release
build derives no validators at all. -/
theorem derivation_fails :
    (buildValidatorSet true publicKeyOfSeed pastPeers ∅ = .error (.indexOutOfBounds 0 0) ∧
      ¬ DerivesNode true publicKeyOfSeed pastPeers (.localhost 3001)) ∧
    (buildValidatorSet true publicKeyOfSeed manyPeers ∅ = .error .addOverflow ∧
      ¬ DerivesNode true publicKeyOfSeed manyPeers (.localhost 3000)) ∧
    (buildValidatorSet false publicKeyOfSeed manyPeers ∅ = .ok ∅ ∧
      ¬ DerivesNode false publicKeyOfSeed manyPeers (.localhost 3000)) := by
  have hpast : buildValidatorSet true publicKeyOfSeed pastPeers ∅ =
      .error (.indexOutOfBounds 0 0) := rfl
  have hdebug : buildValidatorSet true publicKeyOfSeed manyPeers ∅ = .error .addOverflow := by
    simp only [buildValidatorSet, manyPeers, List.length_replicate]
    rfl
  have hrelease : buildValidatorSet false publicKeyOfSeed manyPeers ∅ = .ok ∅ := by
    simp only [buildValidatorSet, manyPeers, List.length_replicate]
    rfl
  refine ⟨⟨hpast, ?_⟩, ⟨hdebug, ?_⟩, hrelease, ?_⟩
  · rintro ⟨set, hset, _⟩
    cases hpast.symm.trans hset
  · rintro ⟨set, hset, _⟩
    cases hdebug.symm.trans hset
  · rintro ⟨set, hset, hcard, _⟩
    cases hrelease.symm.trans hset
    rw [Finmap.keys_empty, Finset.card_empty] at hcard
    omega

end Allegro
