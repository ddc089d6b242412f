import Allegro.Launch
import Allegro.Node
import Allegro.StartEngine

/-!
# Starting a node

The rest of `bin/allegro/src/main.rs`: the parser of `--chain`, the flags as a
configuration, and the way from there to a started engine, through `main`,
`spawn_consensus_thread` and `run_consensus`.

A start has three ends. The process exits: `main` returns an error or panics. Or the
consensus thread ends, with a logged error or a panic that its runtime catches, and
the node runs on without consensus. Or consensus runs. Commonware's network and
engine are taken to start on the configuration they are handed.

Results:
1. `chain_and_validators_of_one_file`: the validators of a start are those of the
   file its chain was parsed from.
2. `start_runs_iff`: which starts lead to consensus, and which ones to a node
   without it.
3. `running_consensus_configured`: what consensus runs with.
-/

namespace Allegro

open Fallible (bind_eq_ok mapError_eq_ok exists_mapM_eq_ok)

/-! ## The chain -/

section Chain

variable {ChainSpec : Type}

/-- `AllegroChainSpecParser::parse`, with `GENESIS_PATH` before and after it. -/
def AllegroChainSpecParser.parse (L : Libs ChainSpec) (devChainspec : ChainSpec) (fs : Fs)
    (genesisPath : Option String) (s : String) : Except LoadError ChainSpec × Option String :=
  if s = "dev" then (.ok devChainspec, none)
  else
    match loadChainWithValidators L fs s with
    | .error e => (.error e, genesisPath)
    | .ok (spec, _) => (.ok spec, some s)

/-- The validators of the file that the parser has stashed. -/
def genesisValidators (L : Libs ChainSpec) (fs : Fs) : Option String → Except LoadError ValidatorSet
  | some path => do
    let (_, validators) ← loadChainWithValidators L fs path
    .ok validators
  | none => .ok ∅

end Chain

/-! ## The flags -/

/-- `Duration::from_millis`. -/
def Duration.fromMillis (millis : UInt64) : Duration where
  nanos := millis.toNat * 10 ^ 6
  bound := by
    have hlt : millis.toNat * 10 ^ 6 < UInt64.size * 10 ^ 6 :=
      Nat.mul_lt_mul_of_pos_right millis.toNat_lt (by decide)
    exact hlt.trans (by decide)

/-- All of `ConsensusArgs`, with the defaults of the flags. -/
structure ConsensusFlags extends ConsensusArgs where
  leaderTimeoutMs : UInt64 := 2000
  certTimeoutMs : UInt64 := 4000
  timeoutRetryMs : UInt64 := 1000
  fetchTimeoutMs : UInt64 := 2000
  maxMsgSize : UInt32 := 1048576
  mailboxSize : UInt64 := 1024
  viewRetention : UInt64 := 10
  skipTimeoutMs : UInt64 := 5000
  termLength : UInt32 := 1
  stallTimeoutMs : UInt64 := 8000
  optimisticViews : UInt64 := 0
  synchronyMs : UInt64 := 2000
  metrics : Bool := false

namespace ConsensusFlags

def resolveListen (dev : Bool) (flags : ConsensusFlags) : ConsensusFlags :=
  { flags with toConsensusArgs := flags.toConsensusArgs.resolveListen dev }

/-- `build_consensus_config`. -/
def buildConsensusConfig (flags : ConsensusFlags) : ConsensusConfig where
  mailboxSize := flags.mailboxSize
  leaderTimeout := .fromMillis flags.leaderTimeoutMs
  certificationTimeout := .fromMillis flags.certTimeoutMs
  timeoutRetry := .fromMillis flags.timeoutRetryMs
  fetchTimeout := .fromMillis flags.fetchTimeoutMs
  viewRetention := flags.viewRetention
  skipTimeout := .fromMillis flags.skipTimeoutMs
  termLength := flags.termLength
  stallTimeout := .fromMillis flags.stallTimeoutMs
  optimisticViews := flags.optimisticViews
  trackHistoricalVotes := false
  forwardingPolicy := .silentVoters
  replayBufferSize := 8 * 1024 * 1024
  writeBufferSize := 1024 * 1024
  pageCachePages := 4096
  pageCacheCapacity := 8192

end ConsensusFlags

/-! ## The network -/

/-- `lookup::Config`: what depends on the flags and the validators. -/
structure LookupConfig where
  publicKey : PublicKey
  listen : SocketAddr
  maxMessageSize : UInt32
  maxPeersPerSet : Nat
  mailboxSize : NonZero UInt64
  synchronyBound : Duration
deriving DecidableEq

/-- The map of a list of pairs. -/
def mapOfPairs (pairs : List (PublicKey × Address)) : HashMap PublicKey Address :=
  pairs.foldl (fun map pair => map.insert pair.1 pair.2) ∅

/-- `ordered::Map::try_from`: refuses a list with a repeated key. -/
def mapTryFrom (pairs : List (PublicKey × Address)) : Option (HashMap PublicKey Address) :=
  if (pairs.map Prod.fst).Nodup then some (mapOfPairs pairs) else none

/-- A validator that is not the node itself, with its address. -/
def peerPair (myPk : PublicKey) (validators : ValidatorSet) (k : PublicKey) :
    Option (PublicKey × Address) :=
  if k = myPk then none else (validators.lookup k).map fun a => (k, a)

/-- `track_peers`: the peer set the network gets, if it gets one. -/
def trackPeers (order : KeyOrder) (myPk : PublicKey) (validators : ValidatorSet) :
    Option (HashMap PublicKey Address) :=
  let pairs := (order.keys validators).filterMap (peerPair myPk validators)
  if pairs = [] then none else mapTryFrom pairs

/-! ## The start -/

/-- What a start depends on besides the flags: the libraries, the file system, the
build, reth, and the operating system. -/
structure Host (A : Alloy) (ChainSpec : Type) where
  libs : Libs ChainSpec
  devChainspec : ChainSpec
  fs : Fs
  overflowChecks : Bool
  /-- `launch_with_builder`: the node of a chain is at its genesis, or did not launch. -/
  launchWithBuilder : ChainSpec → Except String (Genesis A)
  /-- `std::thread::Builder::spawn` -/
  spawn : Except String Unit
  order : KeyOrder
  /-- `commonware_p2p::authenticated::peer_set_limit` -/
  peerSetLimit : List PublicKey → PublicKey → Nat
  /-- The handles that the engine keeps of the finalization channel. -/
  senders : Nat

/-- reth launches, the genesis file loads with the validators `genesis`, and there is a
thread to run on. -/
structure Host.Reaches {A : Alloy} {ChainSpec : Type} (H : Host A ChainSpec) (spec : ChainSpec)
    (genesisPath : Option String) (genesis : ValidatorSet) : Prop where
  launches : ∃ g, H.launchWithBuilder spec = .ok g
  loads : genesisValidators H.libs H.fs genesisPath = .ok genesis
  spawns : H.spawn = .ok ()

/-- Why a process exits. -/
inductive StartupError
  /-- "failed to launch reth node: …" -/
  | reth (reason : String)
  | load (e : LoadError)
  | panic (p : Panic)
  | config (e : EngineError)
  /-- "failed to spawn consensus thread: …" -/
  | spawn (reason : String)
deriving DecidableEq

/-- Why a consensus thread ends. -/
inductive ThreadFailure
  | panic (p : Panic)
  | start (failure : StartFailure)
deriving DecidableEq

/-- What runs on the consensus thread: the network with the peers it tracks, the engine,
and the node behind it. -/
structure Consensus (A : Alloy) where
  lookup : LookupConfig
  peers : Option (HashMap PublicKey Address)
  simplex : SimplexConfig
  node : Node

namespace Host

variable {A : Alloy} {ChainSpec : Type} (H : Host A ChainSpec)

/-- The key of this validator. -/
def publicKey (flags : ConsensusFlags) : PublicKey :=
  H.libs.publicKeyOfSeed flags.node.toUInt64

/-- `dev_lookup_config`. -/
def devLookupConfig (flags : ConsensusFlags) (validators : ValidatorSet) :
    Except ThreadFailure LookupConfig := do
  let listen ← flags.getListen.mapError .panic
  let mailboxSize ← (nonZero .mailboxSize flags.mailboxSize).mapError .start
  .ok {
    publicKey := H.publicKey flags
    listen
    maxMessageSize := flags.maxMsgSize
    maxPeersPerSet := H.peerSetLimit (H.order.keys validators) (H.publicKey flags)
    mailboxSize
    synchronyBound := .fromMillis flags.synchronyMs
  }

/-- The configuration of the engine on the consensus thread. -/
def engineConfig (flags : ConsensusFlags) (validators : ValidatorSet) (g : Genesis A)
    (cc : ConsensusConfig) : EngineConfig where
  publicKey := H.publicKey flags
  validators := validators
  consensusConfig := cc
  metrics := if flags.metrics then some {} else none
  genesis := g.info

/-- `run_consensus`. The tracker and the finalization channel are made next to the
engine. -/
def runConsensus (flags : ConsensusFlags) (validators : ValidatorSet) (g : Genesis A)
    (cc : ConsensusConfig) : Except ThreadFailure (Consensus A) := do
  let lookup ← H.devLookupConfig flags validators
  let started ← (startSimplexEngine H.order (H.engineConfig flags validators g cc)).mapError .start
  .ok {
    lookup
    peers := trackPeers H.order (H.publicKey flags) validators
    simplex := started.simplex
    node := {
      toApp := started.app
      tracker := ForkchoiceTracker.new g.info.hash
      anchor := none
      sink := Fifo.empty (32 + H.senders)
      finalizer := .idle
      log := []
    }
  }

/-- `spawn_consensus_thread`: validates first, so that a bad configuration ends the
process and not only the thread. -/
def spawnConsensusThread (flags : ConsensusFlags) (validators : ValidatorSet) (g : Genesis A) :
    Except StartupError (Except ThreadFailure (Consensus A)) := do
  let consensusConfig := flags.buildConsensusConfig
  consensusConfig.validate.mapError .config
  H.spawn.mapError .spawn
  .ok (H.runConsensus flags validators g consensusConfig)

/-- `main`, with the chain of `--chain` and the path its parser has stashed. The outer
error ends the process, the inner one the consensus thread. -/
def main (dev : Bool) (spec : ChainSpec) (genesisPath : Option String) (flags : ConsensusFlags) :
    Except StartupError (Except ThreadFailure (Consensus A)) := do
  let consensus := flags.resolveListen dev
  let launched ← (H.launchWithBuilder spec).mapError .reth
  let genesisValidators ← (genesisValidators H.libs H.fs genesisPath).mapError .load
  let validators ← (buildValidatorSet H.overflowChecks H.libs.publicKeyOfSeed
    consensus.toConsensusArgs genesisValidators).mapError .panic
  H.spawnConsensusThread consensus validators launched

end Host

/-! ## The file of the chain -/

section Chain

variable {ChainSpec : Type} (L : Libs ChainSpec) (devChainspec : ChainSpec) (fs : Fs)

/-- The chain that was parsed last, and `GENESIS_PATH`. -/
def parseStep (st : Option ChainSpec × Option String) (s : String) :
    Option ChainSpec × Option String :=
  match AllegroChainSpecParser.parse L devChainspec fs st.2 s with
  | (.ok spec, path) => (some spec, path)
  | (.error _, path) => (st.1, path)

/-- `GENESIS_PATH` names the file of the chain that was parsed last. The dev chain has none. -/
def Stashed (st : Option ChainSpec × Option String) : Prop :=
  match st.2 with
  | some path => ∃ spec validators, st.1 = some spec ∧
      loadChainWithValidators L fs path = .ok (spec, validators)
  | none => ∀ spec, st.1 = some spec → spec = devChainspec

variable {L devChainspec fs}

theorem parseStep_dev (st : Option ChainSpec × Option String) :
    parseStep L devChainspec fs st "dev" = (some devChainspec, none) := by
  rw [parseStep, AllegroChainSpecParser.parse, if_pos rfl]

theorem parseStep_file {s : String} {spec : ChainSpec} {validators : ValidatorSet}
    (st : Option ChainSpec × Option String) (hs : s ≠ "dev")
    (hload : loadChainWithValidators L fs s = .ok (spec, validators)) :
    parseStep L devChainspec fs st s = (some spec, some s) := by
  rw [parseStep, AllegroChainSpecParser.parse, if_neg hs, hload]

theorem parseStep_error {s : String} {e : LoadError} (st : Option ChainSpec × Option String)
    (hs : s ≠ "dev") (hload : loadChainWithValidators L fs s = .error e) :
    parseStep L devChainspec fs st s = st := by
  rw [parseStep, AllegroChainSpecParser.parse, if_neg hs, hload]

theorem stashed_start : Stashed L devChainspec fs (none, none) := fun _ h => (nomatch h)

theorem stashed_step {st : Option ChainSpec × Option String} (s : String)
    (h : Stashed L devChainspec fs st) :
    Stashed L devChainspec fs (parseStep L devChainspec fs st s) := by
  by_cases hs : s = "dev"
  · rw [hs, parseStep_dev]
    intro spec hspec
    exact (Option.some.inj hspec).symm
  · cases hload : loadChainWithValidators L fs s with
    | error e =>
      rw [parseStep_error st hs hload]
      exact h
    | ok loaded =>
      rw [parseStep_file st hs hload]
      exact ⟨loaded.1, loaded.2, rfl, hload⟩

variable (L devChainspec fs)

/-- Whatever values of `--chain` were parsed, in whatever order, successfully or not: the
validators of the start are those of the file that the chain was parsed from, which
loads again, or there are none and the chain is the dev chain. -/
theorem chain_and_validators_of_one_file (values : List String) (spec : ChainSpec)
    (hspec : (Run.run (parseStep L devChainspec fs) (none, none) values).1 = some spec) :
    let genesisPath := (Run.run (parseStep L devChainspec fs) (none, none) values).2
    (spec = devChainspec ∧ genesisPath = none ∧ genesisValidators L fs genesisPath = .ok ∅) ∨
      ∃ path validators, genesisPath = some path ∧
        loadChainWithValidators L fs path = .ok (spec, validators) ∧
        genesisValidators L fs genesisPath = .ok validators := by
  have hstashed : Stashed L devChainspec fs
      (Run.run (parseStep L devChainspec fs) (none, none) values) :=
    Run.run_invariant (P := Stashed L devChainspec fs) (fun _ s h => stashed_step s h)
      stashed_start values
  generalize Run.run (parseStep L devChainspec fs) (none, none) values = st at hspec hstashed ⊢
  obtain ⟨last, genesisPath⟩ := st
  cases genesisPath with
  | none => exact .inl ⟨hstashed spec hspec, rfl, rfl⟩
  | some path =>
    obtain ⟨spec', validators, hspec', hload⟩ := hstashed
    cases hspec'.symm.trans hspec
    exact .inr ⟨path, validators, rfl, hload, bind_eq_ok.mpr ⟨_, hload, rfl⟩⟩

end Chain

open LocalDevnet in
/-- The dev chain is parsed first, as the default, and then the chain of a generated genesis. -/
theorem generated_chain_parsed :
    ∃ fs spec validators,
      (Run.run (parseStep (libs twoValidators) (twoValidators.genesis ∅) fs) (none, none)
        ["dev", twoValidators.genesisPath]) = (some spec, some twoValidators.genesisPath) ∧
      genesisValidators (libs twoValidators) fs (some twoValidators.genesisPath) =
        .ok validators := by
  obtain ⟨-, addrs, accounts, -, -, -, -, -, -, hload⟩ :=
    GenesisReloadLemmas.load_written (libs_readsBack _) (run_ok twoValidators_sockets (by decide))
  have hdev : twoValidators.genesisPath ≠ "dev" := by decide
  have hparsed : Run.run (parseStep (libs twoValidators) (twoValidators.genesis ∅)
      (output twoValidators ["127.0.0.1:13000", "127.0.0.1:13001"]).fs) (none, none)
        ["dev", twoValidators.genesisPath] =
      (some ((libs twoValidators).fromGenesis (twoValidators.genesis accounts)),
        some twoValidators.genesisPath) := by
    rw [Run.run_cons, parseStep_dev, Run.run_cons, parseStep_file _ hdev hload]
    rfl
  have hstash := congrArg Prod.snd hparsed
  have hone := chain_and_validators_of_one_file (libs twoValidators) (twoValidators.genesis ∅) _
    ["dev", twoValidators.genesisPath] _ (congrArg Prod.fst hparsed)
  rcases hone with ⟨-, hnone, -⟩ | ⟨path, validators, hpath, -, hloads⟩
  · cases hnone.symm.trans hstash
  · rw [hstash] at hloads
    exact ⟨_, _, validators, hparsed, hloads⟩

/-! ## The configuration of the flags -/

namespace StartupLemmas

theorem fromMillis_lt {a b : UInt64} : Duration.fromMillis a < .fromMillis b ↔ a < b :=
  (Nat.mul_lt_mul_right (by decide)).trans UInt64.lt_iff_toNat_lt.symm

theorem zero_lt_fromMillis {a : UInt64} : .ZERO < Duration.fromMillis a ↔ a ≠ 0 := by
  have hzero : Duration.ZERO = .fromMillis 0 := rfl
  rw [hzero, fromMillis_lt]
  exact UInt64.pos_iff_ne_zero

end StartupLemmas

open StartupLemmas

/-- What the flags have to satisfy. -/
structure ConsensusFlags.Accepted (flags : ConsensusFlags) : Prop where
  mailboxSize : flags.mailboxSize ≠ 0
  leaderTimeout : flags.leaderTimeoutMs ≠ 0
  timeoutRetry : flags.timeoutRetryMs ≠ 0
  fetchTimeout : flags.fetchTimeoutMs ≠ 0
  viewRetention : flags.viewRetention ≠ 0
  termLength : flags.termLength ≠ 0
  leader_lt_cert : flags.leaderTimeoutMs < flags.certTimeoutMs
  cert_lt_skip : flags.certTimeoutMs < flags.skipTimeoutMs
  retry_lt_skip : flags.timeoutRetryMs < flags.skipTimeoutMs
  cert_lt_stall : 1 < flags.termLength → flags.certTimeoutMs < flags.stallTimeoutMs

/-- The defaults of the flags are accepted. -/
theorem defaults_accepted (args : ConsensusArgs) :
    ConsensusFlags.Accepted { toConsensusArgs := args } where
  mailboxSize := (by decide : (1024 : UInt64) ≠ 0)
  leaderTimeout := (by decide : (2000 : UInt64) ≠ 0)
  timeoutRetry := (by decide : (1000 : UInt64) ≠ 0)
  fetchTimeout := (by decide : (2000 : UInt64) ≠ 0)
  viewRetention := (by decide : (10 : UInt64) ≠ 0)
  termLength := (by decide : (1 : UInt32) ≠ 0)
  leader_lt_cert := (by decide : (2000 : UInt64) < 4000)
  cert_lt_skip := (by decide : (4000 : UInt64) < 5000)
  retry_lt_skip := (by decide : (1000 : UInt64) < 5000)
  cert_lt_stall := fun _ => (by decide : (4000 : UInt64) < 8000)

namespace StartupLemmas

/-! ## Deriving the validators -/

section Derived

variable {checks : Bool} {keyOf : UInt64 → PublicKey} {args : ConsensusArgs} {addr : SocketAddr}

theorem exists_entry_iff (hlisten : args.listen = some addr) {i : Nat} :
    (∃ entry, args.entry keyOf i = .ok entry) ↔
      i = args.node.toNat ∨ (i < args.node.toNat ∧ i < args.peers.length) ∨
        (args.node.toNat < i ∧ i - 1 < args.peers.length) := by
  have hpeer : ∀ j, (∃ a, args.peer j = .ok a) ↔ j < args.peers.length := by
    intro j
    unfold ConsensusArgs.peer
    cases hj : args.peers[j]? with
    | none =>
      exact ⟨fun ⟨_, h⟩ => (nomatch h),
        fun h => absurd h (Nat.not_lt.mpr (List.getElem?_eq_none_iff.mp hj))⟩
    | some a => exact ⟨fun _ => (List.getElem?_eq_some_iff.mp hj).1, fun _ => ⟨a, rfl⟩⟩
  have hentry : (∃ entry, args.entry keyOf i = .ok entry) ↔ ∃ a, args.address i = .ok a := by
    constructor
    · rintro ⟨entry, h⟩
      obtain ⟨a, ha, -⟩ := bind_eq_ok.mp h
      exact ⟨a, ha⟩
    · rintro ⟨a, ha⟩
      exact ⟨_, bind_eq_ok.mpr ⟨a, ha, rfl⟩⟩
  rw [hentry, ConsensusArgs.address]
  split
  · next heq =>
    rw [ConsensusArgs.getListen, hlisten]
    exact ⟨fun _ => .inl heq, fun _ => ⟨addr, rfl⟩⟩
  · next hne =>
    split
    · next hlt =>
      rw [hpeer]
      exact ⟨fun h => .inr (.inl ⟨hlt, h⟩), by omega⟩
    · next hge =>
      rw [hpeer]
      exact ⟨fun h => .inr (.inr ⟨by omega, h⟩), by omega⟩

/-- The loop over `n` indices, no more than there are peers and the node itself, succeeds
unless it asks for the peer after the last. -/
theorem forall_entry_iff (hlisten : args.listen = some addr) {n : Nat}
    (hn : n ≤ args.peers.length + 1) :
    (∀ i < n, ∃ entry, args.entry keyOf i = .ok entry) ↔
      (n ≤ args.peers.length ∨ args.node.toNat ≤ args.peers.length) := by
  constructor
  · intro h
    by_contra hcon
    have hlast := (exists_entry_iff hlisten).mp (h args.peers.length (by omega))
    omega
  · intro h i hi
    refine (exists_entry_iff hlisten).mpr ?_
    omega

/-- The count of validators, as `u8` arithmetic gives it. -/
theorem count_mod (n : Nat) : (1 + UInt8.ofNat n).toNat = (n + 1) % 256 := by
  have hone : (1 : UInt8).toNat = 1 := rfl
  rw [UInt8.toNat_add, UInt8.toNat_ofNat', hone]
  omega

theorem addU8_eq_ok {num : UInt8} {n : Nat} :
    addU8 checks 1 (UInt8.ofNat n) = .ok num ↔
      ¬ (checks = true ∧ n % 256 = 255) ∧ num = 1 + UInt8.ofNat n := by
  have hone : (1 : UInt8).toNat = 1 := rfl
  have hover : 255 < (1 : UInt8).toNat + (UInt8.ofNat n).toNat ↔ n % 256 = 255 := by
    rw [UInt8.toNat_ofNat', hone]
    omega
  simp only [addU8, hover]
  split
  · next h =>
    refine ⟨?_, fun h' => absurd h h'.1⟩
    rintro ⟨⟩
  · next h =>
    refine ⟨fun h' => ⟨h, ?_⟩, fun h' => by rw [h'.2]⟩
    cases h'
    rfl

variable (checks keyOf) in
theorem exists_derived_iff (hlisten : args.listen = some addr) :
    (∃ set, buildValidatorSet checks keyOf args ∅ = .ok set) ↔
      ¬ (checks = true ∧ args.peers.length % 256 = 255) ∧
        (254 < args.peers.length ∨ args.node.toNat ≤ args.peers.length) := by
  have hloop : (∃ entries, (List.range (1 + UInt8.ofNat args.peers.length).toNat).mapM
        (args.entry keyOf) = .ok entries) ↔
      (254 < args.peers.length ∨ args.node.toNat ≤ args.peers.length) := by
    simp only [exists_mapM_eq_ok, List.mem_range, count_mod]
    rw [forall_entry_iff hlisten (by omega)]
    omega
  rw [← hloop, buildValidatorSet, if_neg (not_not.mpr Finmap.keys_empty)]
  constructor
  · rintro ⟨set, h⟩
    obtain ⟨num, hnum, h⟩ := bind_eq_ok.mp h
    obtain ⟨entries, hentries, -⟩ := bind_eq_ok.mp h
    obtain ⟨hfits, rfl⟩ := addU8_eq_ok.mp hnum
    exact ⟨hfits, entries, hentries⟩
  · rintro ⟨hfits, entries, hentries⟩
    exact ⟨_, bind_eq_ok.mpr ⟨_, addU8_eq_ok.mpr ⟨hfits, rfl⟩, bind_eq_ok.mpr
      ⟨entries, hentries, rfl⟩⟩⟩

/-- The derived set is empty if the count of validators wraps around to zero. -/
theorem derived_keys_eq_empty {set : ValidatorSet}
    (h : buildValidatorSet checks keyOf args ∅ = .ok set) :
    set.keys = ∅ ↔ args.peers.length % 256 = 255 := by
  obtain ⟨entries, hentries, rfl⟩ := buildValidatorSet_eq_ok h
  have hlen := hentries.length_eq
  rw [List.length_range, count_mod] at hlen
  rw [ValidatorSet.keys_fromEntries, List.toFinset_eq_empty_iff, List.map_eq_nil_iff,
    ← List.length_eq_zero_iff, ← hlen]
  omega

variable {genesis : ValidatorSet}

theorem build_of_no_keys (h : genesis.keys = ∅) :
    buildValidatorSet checks keyOf args genesis = buildValidatorSet checks keyOf args ∅ := by
  rw [buildValidatorSet, if_neg (not_not.mpr h), buildValidatorSet,
    if_neg (not_not.mpr Finmap.keys_empty)]

variable (checks keyOf) in
/-- When a node has validators: it finds some in the genesis, or the loop derives some. -/
theorem exists_validators_iff (hlisten : args.listen = some addr) :
    (∃ set, buildValidatorSet checks keyOf args genesis = .ok set ∧ set.keys ≠ ∅) ↔
      genesis.keys ≠ ∅ ∨ (args.peers.length % 256 ≠ 255 ∧
        (254 < args.peers.length ∨ args.node.toNat ≤ args.peers.length)) := by
  by_cases hgen : genesis.keys = ∅
  · rw [build_of_no_keys hgen]
    constructor
    · rintro ⟨set, hset, hne⟩
      obtain ⟨-, hloop⟩ := (exists_derived_iff checks keyOf hlisten).mp ⟨set, hset⟩
      exact .inr ⟨fun hwrap => hne ((derived_keys_eq_empty hset).mpr hwrap), hloop⟩
    · rintro (hne | ⟨hwrap, hloop⟩)
      · exact absurd hgen hne
      · obtain ⟨set, hset⟩ := (exists_derived_iff checks keyOf hlisten).mpr
          ⟨fun h => hwrap h.2, hloop⟩
        exact ⟨set, hset, fun hempty => hwrap ((derived_keys_eq_empty hset).mp hempty)⟩
  · exact ⟨fun _ => .inl hgen, fun _ => ⟨genesis, if_pos hgen, hgen⟩⟩

variable (checks keyOf) in
/-- When it goes on without any: none in the genesis, and the count wraps around. -/
theorem exists_no_validators_iff (hlisten : args.listen = some addr) :
    (∃ set, buildValidatorSet checks keyOf args genesis = .ok set ∧ set.keys = ∅) ↔
      genesis.keys = ∅ ∧ checks = false ∧ args.peers.length % 256 = 255 := by
  by_cases hgen : genesis.keys = ∅
  · rw [build_of_no_keys hgen]
    constructor
    · rintro ⟨set, hset, hempty⟩
      have hwrap := (derived_keys_eq_empty hset).mp hempty
      obtain ⟨hfits, -⟩ := (exists_derived_iff checks keyOf hlisten).mp ⟨set, hset⟩
      exact ⟨hgen, Bool.eq_false_iff.mpr fun hchecks => hfits ⟨hchecks, hwrap⟩, hwrap⟩
    · rintro ⟨-, hchecks, hwrap⟩
      obtain ⟨set, hset⟩ := (exists_derived_iff checks keyOf hlisten).mpr
        ⟨fun h => absurd (hchecks ▸ h.1) Bool.false_ne_true, .inl (by omega)⟩
      exact ⟨set, hset, (derived_keys_eq_empty hset).mpr hwrap⟩
  · constructor
    · rintro ⟨set, hset, hempty⟩
      rw [buildValidatorSet, if_pos hgen] at hset
      cases hset
      exact absurd hempty hgen
    · exact fun h => absurd h.1 hgen

end Derived

/-! ## The peers -/

section Peers

theorem mapOfPairs_concat (pairs : List (PublicKey × Address)) (last : PublicKey × Address) :
    mapOfPairs (pairs ++ [last]) = (mapOfPairs pairs).insert last.1 last.2 := by
  rw [mapOfPairs, List.foldl_append]
  rfl

theorem lookup_mapOfPairs {pairs : List (PublicKey × Address)}
    (hnodup : (pairs.map Prod.fst).Nodup) {k : PublicKey} {a : Address} :
    (mapOfPairs pairs).lookup k = some a ↔ (k, a) ∈ pairs := by
  induction pairs using List.reverseRecOn with
  | nil => exact ⟨fun h => (nomatch h), fun h => (nomatch h)⟩
  | append_singleton pairs last ih =>
    rw [List.map_append, List.nodup_append] at hnodup
    obtain ⟨hold, -, hnew⟩ := hnodup
    rw [mapOfPairs_concat, List.mem_append, List.mem_singleton]
    by_cases hk : k = last.1
    · have hfresh : (k, a) ∉ pairs := fun hmem =>
        hnew _ (List.mem_map_of_mem hmem) _ (List.mem_singleton_self _) hk
      rw [hk, Finmap.lookup_insert, ← hk]
      constructor
      · intro h
        exact .inr (Prod.ext hk (Option.some.inj h).symm)
      · intro h
        rw [← h.resolve_left hfresh]
    · rw [Finmap.lookup_insert_of_ne _ hk, ih hold]
      exact ⟨.inl, fun h => h.resolve_right fun heq => hk (congrArg Prod.fst heq)⟩

variable {order : KeyOrder} {myPk : PublicKey} {validators : ValidatorSet}

theorem peerPair_eq_some {k : PublicKey} {pair : PublicKey × Address} :
    peerPair myPk validators k = some pair ↔
      k ≠ myPk ∧ pair.1 = k ∧ validators.lookup k = some pair.2 := by
  unfold peerPair
  split
  · next hself => exact ⟨fun h => (nomatch h), fun h => absurd hself h.1⟩
  · next hne =>
    rw [Option.map_eq_some_iff]
    constructor
    · rintro ⟨a, ha, rfl⟩
      exact ⟨hne, rfl, ha⟩
    · rintro ⟨-, hk, ha⟩
      exact ⟨pair.2, ha, Prod.ext hk.symm rfl⟩

theorem mem_peerPairs {k : PublicKey} {a : Address} :
    (k, a) ∈ (order.keys validators).filterMap (peerPair myPk validators) ↔
      (validators.erase myPk).lookup k = some a := by
  have herase : (validators.erase myPk).lookup k = some a ↔
      k ≠ myPk ∧ validators.lookup k = some a := by
    by_cases hk : k = myPk
    · rw [hk, Finmap.lookup_erase]
      exact ⟨fun h => (nomatch h), fun h => absurd rfl h.1⟩
    · rw [Finmap.lookup_erase_ne hk]
      exact ⟨fun h => ⟨hk, h⟩, fun h => h.2⟩
  rw [herase, List.mem_filterMap]
  constructor
  · rintro ⟨k', -, h⟩
    obtain ⟨hne, rfl, ha⟩ := peerPair_eq_some.mp h
    exact ⟨hne, ha⟩
  · rintro ⟨hne, ha⟩
    have hmem : k ∈ order.keys validators := by
      rw [← List.mem_toFinset, order.toFinset_keys, Finmap.mem_keys]
      exact Finmap.mem_of_lookup_eq_some ha
    exact ⟨k, hmem, peerPair_eq_some.mpr ⟨hne, rfl, ha⟩⟩

theorem peerPairs_nodup :
    (((order.keys validators).filterMap (peerPair myPk validators)).map Prod.fst).Nodup := by
  have hkey : ∀ k b, b ∈ (peerPair myPk validators k).map Prod.fst → b = k := by
    intro k b hb
    obtain ⟨pair, hpair, rfl⟩ := Option.map_eq_some_iff.mp hb
    exact (peerPair_eq_some.mp hpair).2.1
  rw [List.map_filterMap]
  refine (order.nodup_keys validators).filterMap fun k k' b hb hb' => ?_
  rw [← hkey k b hb, ← hkey k' b hb']

variable (order myPk validators) in
/-- `track_peers` hands the network the validators without the node itself, if there are
any. The check for repeated keys never fails. -/
theorem trackPeers_eq : trackPeers order myPk validators =
    if validators.erase myPk = ∅ then none else some (validators.erase myPk) := by
  have hmap : mapOfPairs ((order.keys validators).filterMap (peerPair myPk validators)) =
      validators.erase myPk := by
    refine Finmap.ext_lookup fun k => Option.ext fun a => ?_
    rw [lookup_mapOfPairs peerPairs_nodup, mem_peerPairs]
  have hnil : (order.keys validators).filterMap (peerPair myPk validators) = [] ↔
      validators.erase myPk = ∅ := by
    constructor
    · intro h
      rw [← hmap, h]
      rfl
    · intro h
      refine List.eq_nil_iff_forall_not_mem.mpr fun pair hpair => ?_
      rw [mem_peerPairs (a := pair.2), h] at hpair
      cases hpair
  simp only [trackPeers, mapTryFrom, hnil, if_pos peerPairs_nodup, hmap]

end Peers

/-! ## The consensus thread -/

section Thread

variable {flags : ConsensusFlags}

theorem buildConsensusConfig_valid : flags.buildConsensusConfig.Valid ↔ flags.Accepted := by
  constructor
  · intro h
    exact ⟨h.mailboxSize, zero_lt_fromMillis.mp h.leaderTimeout,
      zero_lt_fromMillis.mp h.timeoutRetry, zero_lt_fromMillis.mp h.fetchTimeout, h.viewRetention,
      h.termLength, fromMillis_lt.mp h.leader_lt_certification,
      fromMillis_lt.mp h.certification_lt_skip, fromMillis_lt.mp h.retry_lt_skip,
      fun hterm => fromMillis_lt.mp (h.certification_lt_stall hterm)⟩
  · intro h
    exact ⟨h.mailboxSize, zero_lt_fromMillis.mpr h.leaderTimeout,
      zero_lt_fromMillis.mpr h.timeoutRetry, zero_lt_fromMillis.mpr h.fetchTimeout, h.viewRetention,
      h.termLength, fromMillis_lt.mpr h.leader_lt_cert, fromMillis_lt.mpr h.cert_lt_skip,
      fromMillis_lt.mpr h.retry_lt_skip, fun hterm => fromMillis_lt.mpr (h.cert_lt_stall hterm)⟩

theorem buildConsensusConfig_sizes (flags : ConsensusFlags) :
    SizesNonZero flags.buildConsensusConfig :=
  ⟨default_sizesNonZero.pageCachePages, default_sizesNonZero.pageCacheCapacity,
    default_sizesNonZero.replayBufferSize, default_sizesNonZero.writeBufferSize⟩

theorem electorTerm_isSome (cc : ConsensusConfig) :
    (electorTerm cc).isSome ↔ 1 < cc.termLength := by
  have hterm := electorTerm_eq cc
  split at hterm
  · next hlong =>
    obtain ⟨length, -, heq⟩ := hterm
    rw [heq]
    exact ⟨fun _ => hlong, fun _ => rfl⟩
  · next hshort =>
    rw [hterm]
    exact ⟨fun h => (nomatch h), fun h => absurd h hshort⟩

theorem resolveListen_listen (dev : Bool) (flags : ConsensusFlags) :
    (flags.resolveListen dev).listen =
      some (flags.listen.getD (if dev then .localhost 0 else .v4 0 3000)) := by
  unfold ConsensusFlags.resolveListen ConsensusArgs.resolveListen
  cases hlisten : flags.listen with
  | none => rfl
  | some addr => exact hlisten

theorem resolveListen_flags (dev : Bool) (flags : ConsensusFlags) :
    (flags.resolveListen dev).node = flags.node ∧ (flags.resolveListen dev).peers = flags.peers := by
  unfold ConsensusFlags.resolveListen ConsensusArgs.resolveListen
  cases flags.listen with
  | none => exact ⟨rfl, rfl⟩
  | some addr => exact ⟨rfl, rfl⟩

theorem resolveListen_mailboxSize (dev : Bool) (flags : ConsensusFlags) :
    (flags.resolveListen dev).mailboxSize = flags.mailboxSize := rfl

theorem resolveListen_accepted (dev : Bool) :
    (flags.resolveListen dev).Accepted ↔ flags.Accepted :=
  ⟨fun ⟨h₁, h₂, h₃, h₄, h₅, h₆, h₇, h₈, h₉, h₁₀⟩ => ⟨h₁, h₂, h₃, h₄, h₅, h₆, h₇, h₈, h₉, h₁₀⟩,
    fun ⟨h₁, h₂, h₃, h₄, h₅, h₆, h₇, h₈, h₉, h₁₀⟩ => ⟨h₁, h₂, h₃, h₄, h₅, h₆, h₇, h₈, h₉, h₁₀⟩⟩

end Thread

end StartupLemmas

/-- What consensus runs with: a node of the validators `validators` on the genesis `g`,
started with the flags. -/
structure Consensus.Configured {A : Alloy} {ChainSpec : Type} (H : Host A ChainSpec)
    (flags : ConsensusFlags) (validators : ValidatorSet) (g : Genesis A) (c : Consensus A) : Prop where
  listen : flags.listen = some c.lookup.listen
  key : c.lookup.publicKey = H.publicKey flags
  mailboxSize : c.lookup.mailboxSize.val = flags.mailboxSize
  peers : c.peers = if validators.erase (H.publicKey flags) = ∅ then none
    else some (validators.erase (H.publicKey flags))
  participants : c.simplex.participants = validators.keys
  scheme : signingScheme validators (H.publicKey flags) = some c.simplex.scheme
  timeouts : c.simplex.TimeoutsOrdered
  terms : c.simplex.elector.isSome ↔ 1 < flags.termLength
  node : c.node = Node.start ⟨g, validators, if flags.metrics then some {} else none, H.senders⟩

/-- The start has validators: the genesis does, or the flags give some. -/
def ConsensusFlags.HasValidators (flags : ConsensusFlags) (genesis : ValidatorSet) : Prop :=
  genesis.keys ≠ ∅ ∨ (flags.peers.length % 256 ≠ 255 ∧
    (254 < flags.peers.length ∨ flags.node.toNat ≤ flags.peers.length))

namespace StartupLemmas

section Thread

variable {A : Alloy} {ChainSpec : Type} {H : Host A ChainSpec} {flags : ConsensusFlags}
  {validators : ValidatorSet} {g : Genesis A}

variable (H validators) in
theorem devLookupConfig_ok {addr : SocketAddr} (hlisten : flags.listen = some addr)
    (hmailbox : flags.mailboxSize ≠ 0) :
    ∃ lookup, H.devLookupConfig flags validators = .ok lookup ∧ lookup.listen = addr ∧
      lookup.publicKey = H.publicKey flags ∧ lookup.mailboxSize.val = flags.mailboxSize := by
  have hnonZero : nonZero .mailboxSize flags.mailboxSize = .ok ⟨flags.mailboxSize, hmailbox⟩ :=
    nonZero_eq_ok.mpr rfl
  have hget : flags.getListen = .ok addr := by
    rw [ConsensusArgs.getListen, hlisten]
  refine ⟨_, bind_eq_ok.mpr ⟨addr, mapError_eq_ok.mpr hget, bind_eq_ok.mpr
    ⟨_, mapError_eq_ok.mpr hnonZero, rfl⟩⟩, rfl, rfl, rfl⟩

theorem runConsensus_no_validators {addr : SocketAddr} (hlisten : flags.listen = some addr)
    (haccepted : flags.Accepted) (hempty : validators.keys = ∅) :
    H.runConsensus flags validators g flags.buildConsensusConfig =
      .error (.start (.err (.invalidValidatorConfig .empty))) := by
  obtain ⟨lookup, hlookup, -⟩ := devLookupConfig_ok H validators hlisten
    haccepted.mailboxSize
  have hvalid := ConsensusConfig.validate_eq_ok.mpr (buildConsensusConfig_valid.mpr haccepted)
  have hstart : startSimplexEngine H.order
      (H.engineConfig flags validators g flags.buildConsensusConfig) =
        .error (.err (.invalidValidatorConfig .empty)) := by
    have hvalid' : (H.engineConfig flags validators g
        flags.buildConsensusConfig).consensusConfig.validate = .ok () := hvalid
    rw [startSimplexEngine_eq, hvalid']
    exact if_pos hempty
  rw [Host.runConsensus, hlookup, hstart]
  rfl

theorem runConsensus_ok {addr : SocketAddr} (hlisten : flags.listen = some addr)
    (haccepted : flags.Accepted) (hne : validators.keys ≠ ∅)
    (hbuffer : flags.mailboxSize < MAX_BUFFER) :
    ∃ c, H.runConsensus flags validators g flags.buildConsensusConfig = .ok c ∧
      c.Configured H flags validators g := by
  obtain ⟨lookup, hlookup, haddr, hkey, hmailbox⟩ := devLookupConfig_ok H validators hlisten
    haccepted.mailboxSize
  have hvalid : (H.engineConfig flags validators g flags.buildConsensusConfig).consensusConfig.Valid :=
    buildConsensusConfig_valid.mpr haccepted
  obtain ⟨started, hstarted, hconf⟩ :=
    startSimplexEngine_of_valid H.order hvalid hne hbuffer (buildConsensusConfig_sizes flags)
  obtain ⟨-, -, -, -, happ⟩ := startSimplexEngine_eq_ok.mp hstarted
  refine ⟨_, bind_eq_ok.mpr ⟨lookup, hlookup, bind_eq_ok.mpr
    ⟨started, mapError_eq_ok.mpr hstarted, rfl⟩⟩, ?_⟩
  exact {
    listen := hlisten.trans (congrArg some haddr.symm)
    key := hkey
    mailboxSize := hmailbox
    peers := trackPeers_eq H.order _ validators
    participants := hconf.participants
    scheme := started_scheme hstarted
    timeouts := timeoutsOrdered_of_valid hvalid hconf
    terms := by
      rw [hconf.elector]
      exact electorTerm_isSome _
    node := by
      rw [happ]
      rfl
  }

/-- The runtime catches the panic, and the thread ends. -/
theorem runConsensus_large {addr : SocketAddr} (hlisten : flags.listen = some addr)
    (haccepted : flags.Accepted) (hne : validators.keys ≠ ∅)
    (hlarge : ¬ flags.mailboxSize < MAX_BUFFER) :
    H.runConsensus flags validators g flags.buildConsensusConfig =
      .error (.start (.panic .mailboxChannel)) := by
  obtain ⟨lookup, hlookup, -⟩ := devLookupConfig_ok H validators hlisten
    haccepted.mailboxSize
  have hstart : startSimplexEngine H.order
      (H.engineConfig flags validators g flags.buildConsensusConfig) =
        .error (.panic .mailboxChannel) :=
    startSimplexEngine_large H.order (buildConsensusConfig_valid.mpr haccepted) hne hlarge
  rw [Host.runConsensus, hlookup, hstart]
  rfl

/-! ## The process -/

variable {dev : Bool} {spec : ChainSpec} {genesisPath : Option String}

/-- The stages that a start passes before the consensus thread runs. -/
theorem main_eq_ok {thread : Except ThreadFailure (Consensus A)} :
    H.main dev spec genesisPath flags = .ok thread ↔
      ∃ g genesis set, H.launchWithBuilder spec = .ok g ∧
        genesisValidators H.libs H.fs genesisPath = .ok genesis ∧
        buildValidatorSet H.overflowChecks H.libs.publicKeyOfSeed
          (flags.resolveListen dev).toConsensusArgs genesis = .ok set ∧
        flags.Accepted ∧ H.spawn = .ok () ∧
        H.runConsensus (flags.resolveListen dev) set g
          (flags.resolveListen dev).buildConsensusConfig = thread := by
  have hthread : ∀ (set : ValidatorSet) (g : Genesis A),
      H.spawnConsensusThread (flags.resolveListen dev) set g = .ok thread ↔
        flags.Accepted ∧ H.spawn = .ok () ∧
          H.runConsensus (flags.resolveListen dev) set g
            (flags.resolveListen dev).buildConsensusConfig = thread := by
    intro set g
    rw [← resolveListen_accepted dev, ← buildConsensusConfig_valid,
      ← ConsensusConfig.validate_eq_ok]
    simp only [Host.spawnConsensusThread, bind_eq_ok, mapError_eq_ok, Except.ok.injEq]
    constructor
    · rintro ⟨_, hvalid, _, hspawn, hrun⟩
      exact ⟨hvalid, hspawn, hrun⟩
    · rintro ⟨hvalid, hspawn, hrun⟩
      exact ⟨_, hvalid, _, hspawn, hrun⟩
  simp only [Host.main, bind_eq_ok, mapError_eq_ok, hthread]
  constructor
  · rintro ⟨g, hlaunch, genesis, hgenesis, set, hset, haccepted, hspawn, hrun⟩
    exact ⟨g, genesis, set, hlaunch, hgenesis, hset, haccepted, hspawn, hrun⟩
  · rintro ⟨g, genesis, set, hlaunch, hgenesis, hset, haccepted, hspawn, hrun⟩
    exact ⟨g, hlaunch, genesis, hgenesis, set, hset, haccepted, hspawn, hrun⟩

theorem exists_running_iff :
    (∃ c, H.main dev spec genesisPath flags = .ok (.ok c)) ↔
      flags.Accepted ∧ flags.mailboxSize < MAX_BUFFER ∧
        ∃ genesis, H.Reaches spec genesisPath genesis ∧ flags.HasValidators genesis := by
  obtain ⟨hnode, hpeers⟩ := resolveListen_flags dev flags
  have hlisten := resolveListen_listen dev flags
  unfold ConsensusFlags.HasValidators
  rw [← hnode, ← hpeers]
  constructor
  · rintro ⟨c, hc⟩
    obtain ⟨g, genesis, set, hlaunch, hgenesis, hset, haccepted, hspawn, hrun⟩ := main_eq_ok.mp hc
    have haccepted' := (resolveListen_accepted dev).mpr haccepted
    have hne : set.keys ≠ ∅ := by
      intro hempty
      rw [runConsensus_no_validators hlisten haccepted' hempty] at hrun
      cases hrun
    refine ⟨haccepted, ?_, genesis, ⟨⟨g, hlaunch⟩, hgenesis, hspawn⟩,
      (exists_validators_iff _ _ hlisten).mp ⟨set, hset, hne⟩⟩
    by_contra hlarge
    rw [← resolveListen_mailboxSize dev flags] at hlarge
    rw [runConsensus_large hlisten haccepted' hne hlarge] at hrun
    cases hrun
  · rintro ⟨haccepted, hbuffer, genesis, ⟨⟨g, hlaunch⟩, hgenesis, hspawn⟩, hvalidators⟩
    rw [← resolveListen_mailboxSize dev flags] at hbuffer
    obtain ⟨set, hset, hne⟩ := (exists_validators_iff H.overflowChecks
      H.libs.publicKeyOfSeed hlisten).mpr hvalidators
    obtain ⟨c, hrun, -⟩ := runConsensus_ok (H := H) (g := g) hlisten
      ((resolveListen_accepted dev).mpr haccepted) hne hbuffer
    exact ⟨c, main_eq_ok.mpr ⟨g, genesis, set, hlaunch, hgenesis, hset, haccepted, hspawn, hrun⟩⟩

theorem without_consensus_iff {failure : ThreadFailure} :
    H.main dev spec genesisPath flags = .ok (.error failure) ↔
      flags.Accepted ∧ ∃ genesis, H.Reaches spec genesisPath genesis ∧
        ((failure = .start (.err (.invalidValidatorConfig .empty)) ∧ genesis.keys = ∅ ∧
            H.overflowChecks = false ∧ flags.peers.length % 256 = 255) ∨
          (failure = .start (.panic .mailboxChannel) ∧ ¬ flags.mailboxSize < MAX_BUFFER ∧
            flags.HasValidators genesis)) := by
  obtain ⟨hnode, hpeers⟩ := resolveListen_flags dev flags
  have hlisten := resolveListen_listen dev flags
  unfold ConsensusFlags.HasValidators
  rw [← hnode, ← hpeers, ← resolveListen_mailboxSize dev flags]
  constructor
  · intro hfailed
    obtain ⟨g, genesis, set, hlaunch, hgenesis, hset, haccepted, hspawn, hrun⟩ :=
      main_eq_ok.mp hfailed
    have haccepted' := (resolveListen_accepted dev).mpr haccepted
    refine ⟨haccepted, genesis, ⟨⟨g, hlaunch⟩, hgenesis, hspawn⟩, ?_⟩
    by_cases hempty : set.keys = ∅
    · rw [runConsensus_no_validators hlisten haccepted' hempty] at hrun
      cases hrun
      exact .inl ⟨rfl, (exists_no_validators_iff _ _ hlisten).mp ⟨set, hset, hempty⟩⟩
    · by_cases hbuffer : (flags.resolveListen dev).mailboxSize < MAX_BUFFER
      · obtain ⟨c, hok, -⟩ := runConsensus_ok (H := H) (g := g) hlisten haccepted' hempty hbuffer
        cases hok.symm.trans hrun
      · rw [runConsensus_large hlisten haccepted' hempty hbuffer] at hrun
        cases hrun
        exact .inr ⟨rfl, hbuffer, (exists_validators_iff _ _ hlisten).mp ⟨set, hset, hempty⟩⟩
  · rintro ⟨haccepted, genesis, ⟨⟨g, hlaunch⟩, hgenesis, hspawn⟩, hcase⟩
    have haccepted' := (resolveListen_accepted dev).mpr haccepted
    rcases hcase with ⟨rfl, hnone⟩ | ⟨rfl, hlarge, hvalidators⟩
    · obtain ⟨set, hset, hempty⟩ := (exists_no_validators_iff H.overflowChecks
        H.libs.publicKeyOfSeed hlisten).mpr hnone
      exact main_eq_ok.mpr ⟨g, genesis, set, hlaunch, hgenesis, hset, haccepted, hspawn,
        runConsensus_no_validators hlisten haccepted' hempty⟩
    · obtain ⟨set, hset, hne⟩ := (exists_validators_iff H.overflowChecks
        H.libs.publicKeyOfSeed hlisten).mpr hvalidators
      exact main_eq_ok.mpr ⟨g, genesis, set, hlaunch, hgenesis, hset, haccepted, hspawn,
        runConsensus_large hlisten haccepted' hne hlarge⟩

end Thread

end StartupLemmas

section Results

variable {A : Alloy} {ChainSpec : Type}

/-- Which starts lead to consensus: the flags are accepted, reth, the genesis file and
the thread are there, there are validators, and the mailbox is below the bound of
its channel. The consensus thread fails in two cases. There are no validators at all: a
release build counts 255 peers and itself to zero. Or there are, and the mailbox is too
large: `validate` does not look at that, and the actor panics. Every other start
ends the process. -/
theorem start_runs_iff (H : Host A ChainSpec) (dev : Bool) (spec : ChainSpec)
    (genesisPath : Option String) (flags : ConsensusFlags) :
    ((∃ c, H.main dev spec genesisPath flags = .ok (.ok c)) ↔
      flags.Accepted ∧ flags.mailboxSize < MAX_BUFFER ∧
        ∃ genesis, H.Reaches spec genesisPath genesis ∧ flags.HasValidators genesis) ∧
    ∀ failure, H.main dev spec genesisPath flags = .ok (.error failure) ↔
      flags.Accepted ∧ ∃ genesis, H.Reaches spec genesisPath genesis ∧
        ((failure = .start (.err (.invalidValidatorConfig .empty)) ∧ genesis.keys = ∅ ∧
            H.overflowChecks = false ∧ flags.peers.length % 256 = 255) ∨
          (failure = .start (.panic .mailboxChannel) ∧ ¬ flags.mailboxSize < MAX_BUFFER ∧
            flags.HasValidators genesis)) :=
  ⟨exists_running_iff, fun _ => without_consensus_iff⟩

/-- Where consensus runs, it runs as the flags say, on the validators of the genesis or,
if that has none, on those derived: with positive timeouts in order, as a
signer exactly if the node's key is a validator's, tracking every validator but
itself, and over a node in its start state. -/
theorem running_consensus_configured (H : Host A ChainSpec) (dev : Bool) (spec : ChainSpec)
    (genesisPath : Option String) (flags : ConsensusFlags) (c : Consensus A)
    (hc : H.main dev spec genesisPath flags = .ok (.ok c)) :
    ∃ g genesis validators, H.launchWithBuilder spec = .ok g ∧
      genesisValidators H.libs H.fs genesisPath = .ok genesis ∧
      buildValidatorSet H.overflowChecks H.libs.publicKeyOfSeed
        (flags.resolveListen dev).toConsensusArgs genesis = .ok validators ∧
      c.Configured H (flags.resolveListen dev) validators g := by
  obtain ⟨g, genesis, set, hlaunch, hgenesis, hset, haccepted, -, hrun⟩ := main_eq_ok.mp hc
  have hlisten := resolveListen_listen dev flags
  have haccepted' := (resolveListen_accepted dev).mpr haccepted
  refine ⟨g, genesis, set, hlaunch, hgenesis, hset, ?_⟩
  by_cases hempty : set.keys = ∅
  · rw [runConsensus_no_validators hlisten haccepted' hempty] at hrun
    cases hrun
  · by_cases hbuffer : (flags.resolveListen dev).mailboxSize < MAX_BUFFER
    · obtain ⟨c', hrun', hconf⟩ := runConsensus_ok (H := H) (g := g) hlisten haccepted' hempty
        hbuffer
      cases hrun'.symm.trans hrun
      exact hconf
    · rw [runConsensus_large hlisten haccepted' hempty hbuffer] at hrun
      cases hrun

end Results

/-! ## One of three validators -/

/-- A host on the dev chain. -/
noncomputable def devHost : Host sampleAlloy AlloyGenesis where
  libs := LocalDevnet.writerLibs
  devChainspec := GenesisCmd.genesis ⟨"1", 3000, 1337, "."⟩ ∅
  fs := LocalDevnet.emptyFs
  overflowChecks := true
  launchWithBuilder := fun _ => .ok sampleConfig.genesis
  spawn := .ok ()
  order := .any
  peerSetLimit := fun keys _ => keys.length
  senders := 1

/-- Three local addresses. -/
def localSockets : List SocketAddr := [.localhost 3000, .localhost 3001, .localhost 3002]

/-- The flags of the node at the second of them, for terms of four views. -/
def termedFlags : ConsensusFlags where
  node := 1
  listen := some (.localhost 3001)
  peers := [.localhost 3000, .localhost 3002]
  timeoutRetryMs := 1500
  mailboxSize := 64
  termLength := 4
  stallTimeoutMs := 6000
  optimisticViews := 2
  metrics := true

theorem termedFlags_accepted : termedFlags.Accepted :=
  ⟨by decide, by decide, by decide, by decide, by decide, by decide, by decide, by decide,
    by decide, fun _ => by decide⟩

open StartupLemmas LocalDevnet in
/-- It runs with terms, and tracks the other two. -/
theorem termed_node_configured :
    ∃ c, devHost.main true devHost.devChainspec none termedFlags = .ok (.ok c) ∧
      (∃ g genesis validators, devHost.launchWithBuilder devHost.devChainspec = .ok g ∧
        genesisValidators devHost.libs devHost.fs none = .ok genesis ∧
        buildValidatorSet devHost.overflowChecks devHost.libs.publicKeyOfSeed
          (termedFlags.resolveListen true).toConsensusArgs genesis = .ok validators ∧
        c.Configured devHost (termedFlags.resolveListen true) validators g) ∧
      c.simplex.elector.isSome ∧
      ∃ peers, c.peers = some peers ∧
        peers.lookup (publicKeyOfSeed 0) = some ⟨.localhost 3000, .localhost 0⟩ ∧
        peers.lookup (publicKeyOfSeed 2) = some ⟨.localhost 3002, .localhost 0⟩ := by
  have hruns : ∃ c, devHost.main true devHost.devChainspec none termedFlags = .ok (.ok c) :=
    exists_running_iff.mpr ⟨termedFlags_accepted, by decide, ∅, ⟨⟨_, rfl⟩, rfl, rfl⟩,
      .inr ⟨by decide, .inr (by decide)⟩⟩
  obtain ⟨c, hc⟩ := hruns
  have hconfigured := running_consensus_configured devHost true _ none termedFlags c hc
  obtain ⟨g, genesis, validators, -, hgenesis, hset, hconf⟩ := id hconfigured
  cases hgenesis
  have hderived : buildValidatorSet devHost.overflowChecks devHost.libs.publicKeyOfSeed
      (termedFlags.resolveListen true).toConsensusArgs ∅ =
        .ok (ValidatorSet.fromEntries (ValidatorSet.devnetEntries publicKeyOfSeed localSockets)) :=
    buildValidatorSet_of_flags _ (by decide) (by decide) rfl rfl
  cases hderived.symm.trans hset
  have hzero : ((ValidatorSet.fromEntries (ValidatorSet.devnetEntries publicKeyOfSeed
      localSockets)).erase (publicKeyOfSeed 1)).lookup (publicKeyOfSeed 0) =
        some ⟨.localhost 3000, .localhost 0⟩ := by decide
  have htwo : ((ValidatorSet.fromEntries (ValidatorSet.devnetEntries publicKeyOfSeed
      localSockets)).erase (publicKeyOfSeed 1)).lookup (publicKeyOfSeed 2) =
        some ⟨.localhost 3002, .localhost 0⟩ := by decide
  refine ⟨c, hc, hconfigured, hconf.terms.mpr (by decide), _, ?_, hzero, htwo⟩
  refine hconf.peers.trans (if_neg fun hempty => ?_)
  have hnone := congrArg (Finmap.lookup (publicKeyOfSeed 0)) hempty
  cases hnone.symm.trans hzero

end Allegro
