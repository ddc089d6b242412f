import Allegro.GenesisReload
import Allegro.StartEngine

/-!
# Duplicate validators in a genesis file

A genesis file lists its validators. `load_chain_with_validators` parses the list and collects
it in a map, and `start_simplex_engine` checks the keys of that map for duplicates.
The map has merged them already.

Results:
1. `load_declared`: a file that loads, entry by entry.
2. `duplicates_rejected_iff`: a file that loads and starts keeps every entry apart, at its
   own address, exactly if no two of its entries have the same key;
   `repeated_key_merged`: two entries with one key are one validator.
-/

namespace Allegro

open Fallible (orError_eq_ok bind_eq_ok mapM_eq_ok)

variable {ChainSpec : Type}

/-- The genesis file declares the entries. A file without `validators` declares none. -/
def Declares (L : Libs ChainSpec) (fs : Fs) (path : String) (entries : List ValidatorFileEntry) :
    Prop :=
  ∃ content value field, fs.readToString path = some content ∧ L.fromStr content = some value ∧
    fileEntries path (takeValidators value).1 = .ok field ∧ entries = field.getD []

/-- The key that an entry names. -/
def ValidatorFileEntry.key (L : Libs ChainSpec) (e : ValidatorFileEntry) : Option PublicKey :=
  (L.hexDecode e.publicKey).bind L.decodePublicKey

/-- Every entry is a validator of its own: the keys are distinct, there is one validator for
each entry, and each key has the addresses of its entry. -/
structure KeptApart (L : Libs ChainSpec) (entries : List ValidatorFileEntry) (set : ValidatorSet) :
    Prop where
  distinct : entries.Pairwise fun a b => a.key L ≠ b.key L
  card : set.keys.card = entries.length
  address : ∀ e ∈ entries, ∃ key ingress egress, e.key L = some key ∧
    L.parseSocket e.ingress = some ingress ∧ L.parseSocket e.egress = some egress ∧
    set.lookup key = some ⟨ingress, .ofIp egress.ip 0⟩

/-- Unless the start refuses the validators, each entry is kept apart, and the engine has as
many participants as the file has entries. -/
def DuplicatesRejected (L : Libs ChainSpec) (order : KeyOrder) (cfg : EngineConfig)
    (entries : List ValidatorFileEntry) : Prop :=
  (∀ reason, startSimplexEngine order cfg ≠ .error (.err (.invalidValidatorConfig reason))) →
    KeptApart L entries cfg.validators ∧
      ∀ started, startSimplexEngine order cfg = .ok started →
        started.simplex.participants.card = entries.length

namespace DuplicatesLemmas

variable {L : Libs ChainSpec} {entries : List ValidatorFileEntry} {parsed : List ValidatorEntry}

theorem parseEntry_eq_ok {e : ValidatorFileEntry} {p : ValidatorEntry} :
    parseEntry L e = .ok p ↔ ∃ egress, e.key L = some p.publicKey ∧
      L.parseSocket e.ingress = some p.ingress ∧ L.parseSocket e.egress = some egress ∧
      p.egress = egress.ip := by
  unfold parseEntry ValidatorFileEntry.key
  simp only [bind_eq_ok, orError_eq_ok, Option.bind_eq_some_iff]
  constructor
  · rintro ⟨bytes, hbytes, key, hkey, ingress, hingress, egress, hegress, h⟩
    cases h
    exact ⟨egress, ⟨bytes, hbytes, hkey⟩, hingress, hegress, rfl⟩
  · rintro ⟨egress, ⟨bytes, hbytes, hkey⟩, hingress, hegress, hip⟩
    refine ⟨bytes, hbytes, p.publicKey, hkey, p.ingress, hingress, egress, hegress, ?_⟩
    rw [← hip]

/-- A file that loads: the set is made of its entries, parsed. -/
theorem load_declared {fs : Fs} {path : String} {spec : ChainSpec} {set : ValidatorSet}
    (hdecl : Declares L fs path entries)
    (hload : loadChainWithValidators L fs path = .ok (spec, set)) :
    ∃ parsed, List.Forall₂ (fun e p => parseEntry L e = .ok p) entries parsed ∧
      set = ValidatorSet.fromEntries parsed := by
  obtain ⟨content, value, field, hread, hvalue, hfield, rfl⟩ := hdecl
  obtain ⟨content', hread', hload⟩ := bind_eq_ok.mp hload
  rw [hread] at hread'
  cases hread'
  obtain ⟨value', hvalue', hload⟩ := bind_eq_ok.mp hload
  rw [hvalue] at hvalue'
  cases hvalue'
  obtain ⟨field', hfield', hload⟩ := bind_eq_ok.mp hload
  cases hfield.symm.trans hfield'
  obtain ⟨genesis, -, hload⟩ := bind_eq_ok.mp hload
  obtain ⟨set', hset, hload⟩ := bind_eq_ok.mp hload
  cases hload
  cases field with
  | none =>
    cases hset
    exact ⟨[], .nil, rfl⟩
  | some entries =>
    obtain ⟨parsed, hparsed, hset⟩ := bind_eq_ok.mp hset
    cases hset
    exact ⟨parsed, mapM_eq_ok.mp hparsed, rfl⟩

theorem map_key_of_parsed (hparsed : List.Forall₂ (fun e p => parseEntry L e = .ok p) entries parsed) :
    entries.map (ValidatorFileEntry.key L) = (parsed.map ValidatorEntry.publicKey).map some := by
  induction hparsed with
  | nil => rfl
  | cons hp _ ih =>
    obtain ⟨_, hkey, _⟩ := parseEntry_eq_ok.mp hp
    rw [List.map_cons, List.map_cons, List.map_cons, hkey, ih]

/-- The entries name distinct keys exactly if the parsed keys are distinct. -/
theorem distinct_iff_nodup
    (hparsed : List.Forall₂ (fun e p => parseEntry L e = .ok p) entries parsed) :
    (entries.Pairwise fun a b => a.key L ≠ b.key L) ↔
      (parsed.map ValidatorEntry.publicKey).Nodup := by
  rw [← List.nodup_map_iff (Option.some_injective _), ← map_key_of_parsed hparsed, List.Nodup,
    List.pairwise_map]

/-- Distinct keys are kept apart by the map. -/
theorem keptApart_of_distinct
    (hparsed : List.Forall₂ (fun e p => parseEntry L e = .ok p) entries parsed)
    (hdistinct : entries.Pairwise fun a b => a.key L ≠ b.key L) :
    KeptApart L entries (ValidatorSet.fromEntries parsed) := by
  have hnodup := (distinct_iff_nodup hparsed).mp hdistinct
  refine ⟨hdistinct, ?_, fun e he => ?_⟩
  · rw [ValidatorSet.card_fromEntries hnodup, hparsed.length_eq]
  · obtain ⟨i, hi, rfl⟩ := List.mem_iff_getElem.mp he
    have hi' : i < parsed.length := hparsed.length_eq ▸ hi
    have hp : parseEntry L entries[i] = .ok parsed[i] :=
      (List.forall₂_iff_get.mp hparsed).2 i hi hi'
    obtain ⟨egress, hkey, hingress, hegress, hip⟩ := parseEntry_eq_ok.mp hp
    refine ⟨_, _, egress, hkey, hingress, hegress, ?_⟩
    rw [ValidatorSet.lookup_fromEntries hnodup (List.getElem_mem hi'), ValidatorEntry.address, hip]

end DuplicatesLemmas

open DuplicatesLemmas

/-- For every genesis file that loads, whatever its entries: duplicates are rejected exactly
if no two entries name the same key. -/
theorem duplicates_rejected_iff (L : Libs ChainSpec) (fs : Fs) (path : String)
    (entries : List ValidatorFileEntry) (hdecl : Declares L fs path entries) (spec : ChainSpec)
    (set : ValidatorSet) (hload : loadChainWithValidators L fs path = .ok (spec, set))
    (order : KeyOrder) (cfg : EngineConfig) :
    DuplicatesRejected L order { cfg with validators := set } entries ↔
      entries.Pairwise fun a b => a.key L ≠ b.key L := by
  obtain ⟨parsed, hparsed, rfl⟩ := load_declared hdecl hload
  constructor
  · intro hrejected
    cases entries with
    | nil => exact .nil
    | cons e entries =>
      -- the set has a member, so the start does not refuse it
      refine (hrejected fun reason hrefused => ?_).1.distinct
      obtain ⟨-, hempty⟩ := startSimplexEngine_refuses hrefused
      rw [ValidatorSet.keys_fromEntries, List.toFinset_eq_empty_iff, List.map_eq_nil_iff] at hempty
      rw [hempty] at hparsed
      cases hparsed
  · intro hdistinct _
    have hapart := keptApart_of_distinct hparsed hdistinct
    refine ⟨hapart, fun started hstarted => ?_⟩
    obtain ⟨-, -, -, hs, -⟩ := startSimplexEngine_eq_ok.mp hstarted
    rw [(simplexConfig_ok hs).2.participants]
    exact hapart.card

/-! ## A file of two entries -/

namespace LocalDevnet

/-- Entry `index` of a genesis file: the key of `seed`, on a local port. -/
def localEntry (index : UInt16) (seed : UInt64) (port : UInt16) : ValidatorOutput :=
  let socket := "127.0.0.1:" ++ Text.decimal port.toNat
  ⟨index, hexEncode (publicKeyOfSeed seed).bytes, socket, socket⟩

/-- The genesis of the small devnet, with these entries. -/
def genesisWith (vs : List ValidatorOutput) : Json :=
  GenesisCmd.spliceValidators (.array (vs.map ValidatorOutput.toValue))
    (genesisToValue (twoValidators.genesis accounts))

/-- The libraries, reading that file. -/
def readerLibs (vs : List ValidatorOutput) : Libs AlloyGenesis :=
  { writerLibs with
    fromStr := fun s => if s = pretty "" (genesisWith vs) then some (genesisWith vs) else none
    genesisFromValue := (libs twoValidators).genesisFromValue }

def genesisFs (vs : List ValidatorOutput) : Fs :=
  ⟨(∅ : HashMap String String).insert "genesis.json" (pretty "" (genesisWith vs)), fun _ => false⟩

variable {vs : List ValidatorOutput}

theorem readToString_genesisFs :
    (genesisFs vs).readToString "genesis.json" = some (pretty "" (genesisWith vs)) :=
  Finmap.lookup_insert _

theorem fromStr_genesisWith :
    (readerLibs vs).fromStr (pretty "" (genesisWith vs)) = some (genesisWith vs) := by
  unfold readerLibs
  simp only [if_true]

theorem genesisFromValue_readerLibs :
    (readerLibs vs).genesisFromValue (genesisToValue (twoValidators.genesis accounts)) =
      some (twoValidators.genesis accounts) := by
  have hsame : (readerLibs vs).genesisFromValue = (libs twoValidators).genesisFromValue := by
    unfold readerLibs
    rfl
  rw [hsame, genesisFromValue_genesisToValue]

theorem takeValidators_genesisWith :
    takeValidators (genesisWith vs) = (some (.array (vs.map ValidatorOutput.toValue)),
      genesisToValue (twoValidators.genesis accounts)) :=
  GenesisReloadLemmas.takeValidators_splice _ (validators_notMem_genesisFields _)

theorem fileEntries_toValue (path : String) :
    fileEntries path (some (.array (vs.map ValidatorOutput.toValue))) =
      .ok (some (vs.map GenesisReloadLemmas.fileEntry)) :=
  bind_eq_ok.mpr ⟨_, orError_eq_ok.mpr (GenesisReloadLemmas.listFromValue_toValue vs), rfl⟩

theorem declares_genesisFs :
    Declares (readerLibs vs) (genesisFs vs) "genesis.json"
      (vs.map GenesisReloadLemmas.fileEntry) := by
  refine ⟨_, _, some _, readToString_genesisFs, fromStr_genesisWith, ?_, rfl⟩
  rw [takeValidators_genesisWith]
  exact fileEntries_toValue _

theorem load_genesisFs {parsed : List ValidatorEntry}
    (hparsed : (vs.map GenesisReloadLemmas.fileEntry).mapM (parseEntry (readerLibs vs)) =
      .ok parsed) :
    loadChainWithValidators (readerLibs vs) (genesisFs vs) "genesis.json" =
      .ok (twoValidators.genesis accounts, ValidatorSet.fromEntries parsed) := by
  refine bind_eq_ok.mpr ⟨_, orError_eq_ok.mpr readToString_genesisFs, bind_eq_ok.mpr
    ⟨_, orError_eq_ok.mpr fromStr_genesisWith, ?_⟩⟩
  rw [takeValidators_genesisWith]
  refine bind_eq_ok.mpr ⟨_, fileEntries_toValue _, bind_eq_ok.mpr
    ⟨_, orError_eq_ok.mpr genesisFromValue_readerLibs, bind_eq_ok.mpr ⟨_, ?_, rfl⟩⟩⟩
  exact bind_eq_ok.mpr ⟨parsed, hparsed, rfl⟩

theorem parseEntry_localEntry (index : UInt16) (seed : UInt64) (port : UInt16) :
    parseEntry (readerLibs vs) (GenesisReloadLemmas.fileEntry (localEntry index seed port)) =
      .ok ⟨publicKeyOfSeed seed, .localhost port, (SocketAddr.localhost port).ip⟩ := by
  have hkey : ValidatorFileEntry.key (readerLibs vs)
      (GenesisReloadLemmas.fileEntry (localEntry index seed port)) = some (publicKeyOfSeed seed) :=
    Option.bind_eq_some_iff.mpr
      ⟨_, hexBytes_encode _, decodePublicKey_bytes (publicKeyOfSeed seed)⟩
  exact parseEntry_eq_ok.mpr
    ⟨.localhost port, hkey, parseSocket_localhost port, parseSocket_localhost port, rfl⟩

/-- Two entries, with the keys of two seeds. -/
def twoEntries (seed seed' : UInt64) : List ValidatorOutput :=
  [localEntry 0 seed 13000, localEntry 1 seed' 13001]

/-- The same entries, parsed. -/
def twoParsed (seed seed' : UInt64) : List ValidatorEntry :=
  [⟨publicKeyOfSeed seed, .localhost 13000, (SocketAddr.localhost 13000).ip⟩,
    ⟨publicKeyOfSeed seed', .localhost 13001, (SocketAddr.localhost 13001).ip⟩]

theorem parsed_twoEntries (seed seed' : UInt64) :
    List.Forall₂ (fun e p => parseEntry (readerLibs (twoEntries seed seed')) e = .ok p)
      ((twoEntries seed seed').map GenesisReloadLemmas.fileEntry) (twoParsed seed seed') :=
  .cons (parseEntry_localEntry 0 seed 13000) (.cons (parseEntry_localEntry 1 seed' 13001) .nil)

theorem load_twoEntries (seed seed' : UInt64) :
    loadChainWithValidators (readerLibs (twoEntries seed seed')) (genesisFs (twoEntries seed seed'))
        "genesis.json" =
      .ok (twoValidators.genesis accounts, ValidatorSet.fromEntries (twoParsed seed seed')) :=
  load_genesisFs (mapM_eq_ok.mpr (parsed_twoEntries seed seed'))

/-- An engine with the defaults and these validators. -/
def twoEntriesConfig (seed seed' : UInt64) : EngineConfig :=
  { sampleEngineConfig .default with validators := ValidatorSet.fromEntries (twoParsed seed seed') }

end LocalDevnet

open LocalDevnet

/-- The keys of seeds 0 and 1 stay two validators. -/
theorem two_keys_kept_apart :
    Declares (readerLibs (twoEntries 0 1)) (genesisFs (twoEntries 0 1)) "genesis.json"
        ((twoEntries 0 1).map GenesisReloadLemmas.fileEntry) ∧
      DuplicatesRejected (readerLibs (twoEntries 0 1)) .any (twoEntriesConfig 0 1)
        ((twoEntries 0 1).map GenesisReloadLemmas.fileEntry) := by
  refine ⟨declares_genesisFs, (duplicates_rejected_iff _ _ _ _ declares_genesisFs _ _
    (load_twoEntries 0 1) .any (sampleEngineConfig .default)).mpr ?_⟩
  rw [distinct_iff_nodup (parsed_twoEntries 0 1)]
  decide

/-- The key of seed 0 twice, on two ports: the file loads, the engine starts with one
participant, and the first port is gone. -/
theorem repeated_key_merged :
    Declares (readerLibs (twoEntries 0 0)) (genesisFs (twoEntries 0 0)) "genesis.json"
        ((twoEntries 0 0).map GenesisReloadLemmas.fileEntry) ∧
      loadChainWithValidators (readerLibs (twoEntries 0 0)) (genesisFs (twoEntries 0 0))
          "genesis.json" =
        .ok (twoValidators.genesis accounts, (twoEntriesConfig 0 0).validators) ∧
      (twoEntriesConfig 0 0).validators.lookup (publicKeyOfSeed 0) =
        some ⟨.localhost 13001, .localhost 0⟩ ∧
      (∃ started, startSimplexEngine .any (twoEntriesConfig 0 0) = .ok started ∧
        started.simplex.participants.card = 1) ∧
      ¬ DuplicatesRejected (readerLibs (twoEntries 0 0)) .any (twoEntriesConfig 0 0)
        ((twoEntries 0 0).map GenesisReloadLemmas.fileEntry) := by
  have hcard : (twoEntriesConfig 0 0).validators.keys.card = 1 := by
    show (ValidatorSet.fromEntries (twoParsed 0 0)).keys.card = 1
    rw [ValidatorSet.keys_fromEntries]
    decide
  have hne : (twoEntriesConfig 0 0).validators.keys ≠ ∅ :=
    Finset.card_pos.mp (hcard ▸ Nat.one_pos) |>.ne_empty
  obtain ⟨started, hstarted, hconf⟩ :=
    startSimplexEngine_of_valid .any ConsensusConfig.default_valid hne (by decide)
      default_sizesNonZero
  have hone : started.simplex.participants.card = 1 := by rw [hconf.participants, hcard]
  refine ⟨declares_genesisFs, load_twoEntries 0 0, rfl, ⟨started, hstarted, hone⟩, ?_⟩
  intro hrejected
  obtain ⟨-, hcount⟩ := hrejected fun reason hrefused => nomatch hstarted.symm.trans hrefused
  exact absurd (hone.symm.trans (hcount started hstarted)) (by decide)

end Allegro
