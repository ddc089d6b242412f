import Allegro.Startup

/-!
# Devnets

What the two ways into a devnet (`Allegro.Launch`) come to: the nodes that run are one
network. Every node signs, all have the same participants, and every node tracks
every other one under its key, at the address it listens on.

1. `flags_devnet_meshed`: for the nodes that are given each other's addresses.
2. `generated_devnet_meshed`: for the nodes launched as a generated genesis says.
-/

namespace Allegro

open Fallible (bind_eq_ok)

variable {A : Alloy} {ChainSpec : Type}

/-- The nodes are one network. -/
structure FullMesh {ι : Type} (c : ι → Consensus A) : Prop where
  signs : ∀ i, (c i).simplex.scheme = .signer
  participants : ∀ i j, (c i).simplex.participants = (c j).simplex.participants
  member : ∀ i j, (c j).lookup.publicKey ∈ (c i).simplex.participants
  tracks : ∀ i j, i ≠ j → ∃ peers, (c i).peers = some peers ∧
    peers.lookup (c j).lookup.publicKey =
      some ⟨(c j).lookup.listen, .ofIp (c j).lookup.listen.ip 0⟩

namespace DevnetLemmas

variable {keyOf : UInt64 → PublicKey} {sockets : List SocketAddr}

/-- The validators of the devnet on `sockets`. -/
abbrev devnet (keyOf : UInt64 → PublicKey) (sockets : List SocketAddr) : ValidatorSet :=
  ValidatorSet.fromEntries (ValidatorSet.devnetEntries keyOf sockets)

theorem lookup_devnet
    (hseed : ∀ i < sockets.length, ∀ j < sockets.length,
      keyOf (UInt64.ofNat i) = keyOf (UInt64.ofNat j) → i = j) {i : Nat} (hi : i < sockets.length) :
    (devnet keyOf sockets).lookup (keyOf (UInt64.ofNat i)) =
      some ⟨sockets[i], .ofIp sockets[i].ip 0⟩ :=
  ((ValidatorSet.isDevnet_fromEntries hseed).2 _ _).mpr ⟨i, hi, rfl, rfl⟩

theorem key_mem_devnet {i : Nat} (hi : i < sockets.length) :
    keyOf (UInt64.ofNat i) ∈ devnet keyOf sockets :=
  ValidatorSet.mem_fromEntries.mpr (List.mem_map.mpr
    ⟨_, ValidatorSet.mem_devnetEntries.mpr ⟨i, hi, rfl⟩, rfl⟩)

theorem devnet_keys_ne {i : Nat} (hi : i < sockets.length) : (devnet keyOf sockets).keys ≠ ∅ :=
  Finset.ne_empty_of_mem (Finmap.mem_keys.mpr (key_mem_devnet hi))

/-- Consensus runs as validator `i` of the devnet. -/
structure RunsAs (keyOf : UInt64 → PublicKey) (sockets : List SocketAddr) (i : Nat)
    (c : Consensus A) : Prop where
  listen : sockets[i]? = some c.lookup.listen
  key : c.lookup.publicKey = keyOf (UInt64.ofNat i)
  signs : c.simplex.scheme = .signer
  participants : c.simplex.participants = (devnet keyOf sockets).keys
  peers : ∀ k a, k ≠ c.lookup.publicKey → (devnet keyOf sockets).lookup k = some a →
    ∃ peers, c.peers = some peers ∧ peers.lookup k = some a

theorem runsAs_of_configured {H : Host A ChainSpec} {flags : ConsensusFlags} {g : Genesis A}
    {c : Consensus A} {i : Nat} (hi : i < sockets.length)
    (hkey : H.publicKey flags = keyOf (UInt64.ofNat i)) (hlisten : flags.listen = sockets[i]?)
    (h : c.Configured H flags (devnet keyOf sockets) g) : RunsAs keyOf sockets i c where
  listen := hlisten.symm.trans h.listen
  key := h.key.trans hkey
  signs := by
    have hscheme := h.scheme
    rw [hkey, signingScheme, if_neg (devnet_keys_ne hi), if_pos (key_mem_devnet hi)] at hscheme
    exact (Option.some.inj hscheme).symm
  participants := h.participants
  peers := by
    intro k a hk hlookup
    rw [h.key] at hk
    have herase : ((devnet keyOf sockets).erase (H.publicKey flags)).lookup k = some a := by
      rw [Finmap.lookup_erase_ne hk, hlookup]
    have hpeers := h.peers
    rw [if_neg] at hpeers
    · exact ⟨_, hpeers, herase⟩
    · intro hempty
      rw [hempty] at herase
      cases herase

theorem fullMesh_of_runsAs
    (hseed : ∀ i < sockets.length, ∀ j < sockets.length,
      keyOf (UInt64.ofNat i) = keyOf (UInt64.ofNat j) → i = j)
    {n : Nat} (hn : n ≤ sockets.length) {c : Fin n → Consensus A}
    (h : ∀ i : Fin n, RunsAs keyOf sockets i (c i)) : FullMesh c where
  signs := fun i => (h i).signs
  participants := fun i j => (h i).participants.trans (h j).participants.symm
  member := by
    intro i j
    rw [(h i).participants, Finmap.mem_keys, (h j).key]
    exact key_mem_devnet (j.isLt.trans_le hn)
  tracks := by
    intro i j hij
    have hj : j.val < sockets.length := j.isLt.trans_le hn
    obtain ⟨_, hlisten⟩ := List.getElem?_eq_some_iff.mp (h j).listen
    have hlookup := lookup_devnet hseed hj
    rw [hlisten, ← (h j).key] at hlookup
    refine (h i).peers _ _ (fun hsame => hij ?_) hlookup
    rw [(h j).key, (h i).key] at hsame
    exact Fin.ext (hseed j hj i (i.isLt.trans_le hn) hsame).symm

/-! ## One node -/

open StartupLemmas LaunchLemmas GenesisReloadLemmas

variable {H : Host A ChainSpec} {dev : Bool} {spec : ChainSpec} {genesisPath : Option String}
  {flags : ConsensusFlags}

theorem resolveListen_of_listen (dev : Bool) {addr : SocketAddr} (hlisten : flags.listen = some addr) :
    flags.resolveListen dev = flags := by
  obtain ⟨⟨node, listen, peers⟩⟩ := flags
  cases hlisten
  rfl

theorem main_of_validators (dev : Bool) {addr : SocketAddr} {genesis set : ValidatorSet}
    (hreach : H.Reaches spec genesisPath genesis) (haccepted : flags.Accepted)
    (hbuffer : flags.mailboxSize < MAX_BUFFER) (hlisten : flags.listen = some addr)
    (hset : buildValidatorSet H.overflowChecks H.libs.publicKeyOfSeed flags.toConsensusArgs
      genesis = .ok set) (hne : set.keys ≠ ∅) :
    ∃ c g, H.main dev spec genesisPath flags = .ok (.ok c) ∧ c.Configured H flags set g := by
  obtain ⟨g, hlaunch⟩ := hreach.launches
  obtain ⟨c, hrun, hconf⟩ := runConsensus_ok (H := H) (g := g) hlisten haccepted hne hbuffer
  have hresolve := resolveListen_of_listen dev hlisten
  refine ⟨c, g, main_eq_ok.mpr ⟨g, genesis, set, hlaunch, hreach.loads, ?_, haccepted,
    hreach.spawns, ?_⟩, hconf⟩
  · rw [hresolve]
    exact hset
  · rw [hresolve]
    exact hrun

/-- A node on a set of devnet validators runs as the one of its index. -/
theorem main_runsAs {genesis : ValidatorSet} {i : Nat} (hi : i < sockets.length)
    (hreach : H.Reaches spec genesisPath genesis) (hkeys : H.libs.publicKeyOfSeed = keyOf)
    (haccepted : flags.Accepted) (hbuffer : flags.mailboxSize < MAX_BUFFER)
    (hnode : flags.node.toNat = i) (hlisten : flags.listen = sockets[i]?)
    (hset : buildValidatorSet H.overflowChecks keyOf flags.toConsensusArgs genesis =
      .ok (devnet keyOf sockets)) :
    ∃ c, H.main dev spec genesisPath flags = .ok (.ok c) ∧ RunsAs keyOf sockets i c := by
  have hsome : flags.listen = some sockets[i] := hlisten.trans (List.getElem?_eq_getElem hi)
  have hset' : buildValidatorSet H.overflowChecks H.libs.publicKeyOfSeed flags.toConsensusArgs
      genesis = .ok (devnet keyOf sockets) := by rw [hkeys, hset]
  obtain ⟨c, g, hmain, hconf⟩ := main_of_validators dev hreach haccepted hbuffer hsome hset'
    (devnet_keys_ne hi)
  have hkey : H.publicKey flags = keyOf (UInt64.ofNat i) := by
    rw [Host.publicKey, hkeys, toUInt64_node, hnode]
  exact ⟨c, hmain, runsAs_of_configured hi hkey hlisten hconf⟩

end DevnetLemmas

open DevnetLemmas StartupLemmas LaunchLemmas GenesisReloadLemmas

/-! ## By flags -/

/-- The flags of node `i` among `sockets`: its own to listen on, the others as peers, and
a mailbox below the bound of its channel. -/
structure ConsensusFlags.Among (sockets : List SocketAddr) (i : Nat) (flags : ConsensusFlags) :
    Prop where
  accepted : flags.Accepted
  buffer : flags.mailboxSize < MAX_BUFFER
  node : flags.node.toNat = i
  listen : flags.listen = sockets[i]?
  peers : flags.peers = sockets.eraseIdx i

/-- The nodes of up to 255 addresses, each given its own address to listen on and the others
as peers, on any chain without validators: all run, and they are one network. -/
theorem flags_devnet_meshed (keyOf : UInt64 → PublicKey) (sockets : List SocketAddr)
    (hlen : sockets.length ≤ 255)
    (hseed : ∀ i < sockets.length, ∀ j < sockets.length,
      keyOf (UInt64.ofNat i) = keyOf (UInt64.ofNat j) → i = j)
    (H : Fin sockets.length → Host A ChainSpec) (hkeys : ∀ i, (H i).libs.publicKeyOfSeed = keyOf)
    (dev : Bool) (spec : ChainSpec) (genesisPath : Option String)
    (hreach : ∀ i, (H i).Reaches spec genesisPath ∅) (flags : Fin sockets.length → ConsensusFlags)
    (hflags : ∀ i, (flags i).Among sockets i) :
    ∃ c : Fin sockets.length → Consensus A,
      (∀ i, (H i).main dev spec genesisPath (flags i) = .ok (.ok (c i))) ∧ FullMesh c := by
  have hnode : ∀ i, ∃ c, (H i).main dev spec genesisPath (flags i) = .ok (.ok c) ∧
      RunsAs keyOf sockets i c := by
    intro i
    have hset : buildValidatorSet (H i).overflowChecks keyOf (flags i).toConsensusArgs ∅ =
        .ok (devnet keyOf sockets) :=
      buildValidatorSet_of_flags (H i).overflowChecks hlen ((hflags i).node ▸ i.isLt)
        ((hflags i).node ▸ (hflags i).listen) ((hflags i).node ▸ (hflags i).peers)
    exact main_runsAs i.isLt (hreach i) (hkeys i) (hflags i).accepted (hflags i).buffer
      (hflags i).node (hflags i).listen hset
  choose c hmain hruns using hnode
  exact ⟨c, hmain, fullMesh_of_runsAs hseed (Nat.le_refl _) hruns⟩

/-- The flags of the node at the `i`-th of three local addresses. -/
def localFlags (i : Fin localSockets.length) : ConsensusFlags where
  node := UInt8.ofNat i
  listen := localSockets[i.val]?
  peers := localSockets.eraseIdx i

theorem localFlags_among (i : Fin localSockets.length) : (localFlags i).Among localSockets i := by
  refine ⟨defaults_accepted _, (by decide : (1024 : UInt64) < MAX_BUFFER), ?_, rfl, rfl⟩
  revert i
  decide

/-- They run, as one network. -/
theorem three_nodes_meshed :
    ∃ c : Fin localSockets.length → Consensus sampleAlloy,
      (∀ i, devHost.main true devHost.devChainspec none (localFlags i) = .ok (.ok (c i))) ∧
        FullMesh c :=
  flags_devnet_meshed LocalDevnet.publicKeyOfSeed localSockets (by decide)
    (ValidatorSet.seeds_distinct LocalDevnet.publicKeyOfSeed_injective (by decide))
    (fun _ => devHost) (fun _ => rfl) true devHost.devChainspec none
    (fun _ => ⟨⟨_, rfl⟩, rfl, rfl⟩) localFlags localFlags_among

/-! ## By a generated genesis -/

theorem DevnetLemmas.parse_launchCommand {L : Libs ChainSpec} {cmd : GenesisCmd} {i : Nat}
    {socket : String} {addr : SocketAddr} (hsmall : i ≤ 255)
    (hsocket : L.parseSocket socket = some addr) :
    (cmd.launchCommand (GenesisCmd.validatorOutput L (UInt16.ofNat i) socket)).parse L =
      some ⟨UInt8.ofNat i, some addr, []⟩ := by
  have hindex := (seed_of_small hsmall).2
  unfold LaunchCommand.parse
  rw [nodeIndex_parsed]
  show ((if (UInt16.ofNat i).toNat ≤ 255 then some (UInt16.ofNat i).toNat else none).bind
    fun node => (L.parseSocket socket).bind fun listen =>
      some (ConsensusArgs.mk (UInt8.ofNat node) (some listen) [])) = _
  rw [hindex, if_pos hsmall, hsocket]
  rfl

/-- After a successful run of the generator for at most 256 validators, with any validator
set it was given: the nodes launched by the printed commands, with any other flags that
are accepted and a mailbox below the bound of its channel, all run, and they are
one network. -/
theorem generated_devnet_meshed (L : Libs ChainSpec) (cmd : GenesisCmd) (hL : L.ReadsBack cmd)
    (hseed : Function.Injective L.publicKeyOfSeed) (fs : Fs) (out : GenesisOutput)
    (hrun : cmd.run L fs = .ok out) (hfew : cmd.requested ≤ 256)
    (H : Fin out.launch.length → Host A ChainSpec) (hlibs : ∀ i, (H i).libs = L)
    (hfs : ∀ i, (H i).fs = out.fs) (spec : ChainSpec)
    (hreth : ∀ i, ∃ g, (H i).launchWithBuilder spec = .ok g) (hspawn : ∀ i, (H i).spawn = .ok ())
    (flags : Fin out.launch.length → ConsensusFlags)
    (hflags : ∀ i, out.launch[i].parse L = some (flags i).toConsensusArgs)
    (haccepted : ∀ i, (flags i).Accepted) (hbuffer : ∀ i, (flags i).mailboxSize < MAX_BUFFER) :
    ∃ c : Fin out.launch.length → Consensus A,
      (∀ i, (H i).main false spec (some cmd.genesisPath) (flags i) = .ok (.ok (c i))) ∧
        FullMesh c := by
  obtain ⟨sockets, addrs, accounts, hsockets, -, hparse, hlen, hvalidators, hlaunch, hload⟩ :=
    load_written hL hrun
  have hcount : out.launch.length = sockets.length := by
    rw [hlaunch, hvalidators, List.length_map, GenesisCmd.validatorOutputs, List.length_mapIdx]
  have hsame := hparse.length_eq
  have hsmall : sockets.length ≤ 256 := (sockets_length hsockets).trans_le hfew
  have hnode : ∀ i : Fin out.launch.length, ∃ c, (H i).main false spec (some cmd.genesisPath)
      (flags i) = .ok (.ok c) ∧ RunsAs L.publicKeyOfSeed addrs i c := by
    intro i
    have hi : i.val < sockets.length := i.isLt.trans_eq hcount
    have hi' : i.val < addrs.length := hi.trans_eq hsame
    have hle : i.val ≤ 255 := Nat.le_of_lt_succ (hi.trans_le hsmall)
    have hcommand : out.launch[i] = cmd.launchCommand
        (GenesisCmd.validatorOutput L (UInt16.ofNat i) sockets[i.val]) := by
      simp only [Fin.getElem_fin, hlaunch, hvalidators, List.getElem_map,
        GenesisCmd.validatorOutputs, List.getElem_mapIdx]
    have hsocket : L.parseSocket sockets[i.val] = some addrs[i.val] :=
      (List.forall₂_iff_get.mp hparse).2 i hi hi'
    have hargs := hflags i
    rw [hcommand, parse_launchCommand hle hsocket] at hargs
    have hargs : (flags i).toConsensusArgs = ⟨UInt8.ofNat i, some addrs[i.val], []⟩ :=
      (Option.some.inj hargs).symm
    have hindex : (flags i).node.toNat = i := by
      rw [hargs]
      exact UInt8.toNat_ofNat_of_lt' (Nat.lt_succ_of_le hle)
    have hlisten : (flags i).listen = addrs[i.val]? := by
      rw [hargs, List.getElem?_eq_getElem hi']
    refine main_runsAs hi' ⟨hreth i, ?_, hspawn i⟩ (by rw [hlibs]) (haccepted i) (hbuffer i)
      hindex hlisten (if_pos (devnet_keys_ne hi'))
    rw [hlibs, hfs]
    exact bind_eq_ok.mpr ⟨_, hload, rfl⟩
  choose c hmain hruns using hnode
  refine ⟨c, hmain, fullMesh_of_runsAs (ValidatorSet.seeds_distinct hseed ?_)
    (hcount.trans hsame).le hruns⟩
  exact hsame ▸ hlen.trans (by decide)

open LocalDevnet

/-- What the flags of the printed commands are. -/
def printedFlags (i : Fin 2) : ConsensusFlags where
  node := UInt8.ofNat i
  listen := some (.localhost (13000 + UInt16.ofNat i))
  peers := []

/-- Both nodes of the small devnet run, as one network. -/
theorem two_launched_nodes_meshed :
    ∃ (fs : Fs) (c : Fin 2 → Consensus sampleAlloy),
      (∀ i, Host.main { devHost with libs := libs twoValidators, fs := fs } false
        devHost.devChainspec (some twoValidators.genesisPath) (printedFlags i) = .ok (.ok (c i))) ∧
      FullMesh c := by
  have hrun := run_ok twoValidators_sockets (by decide)
  have hparsed : ∀ i : Fin 2, (output twoValidators
      ["127.0.0.1:13000", "127.0.0.1:13001"]).launch[i].parse (libs twoValidators) =
        some (printedFlags i).toConsensusArgs := by
    intro i
    match i with
    | 0 => exact parse_launchCommand (i := 0) (by decide) (by decide)
    | 1 => exact parse_launchCommand (i := 1) (by decide) (by decide)
  refine ⟨_, generated_devnet_meshed (libs twoValidators) twoValidators (libs_readsBack _)
    publicKeyOfSeed_injective _ _ hrun (by decide) (fun _ => _) (fun _ => rfl) (fun _ => rfl)
    devHost.devChainspec (fun _ => ⟨_, rfl⟩) (fun _ => rfl) printedFlags hparsed
    (fun _ => defaults_accepted _) fun _ => (by decide : (1024 : UInt64) < MAX_BUFFER)⟩

end Allegro
