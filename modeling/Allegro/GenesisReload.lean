import Allegro.Xtask
import Allegro.Chainspec

/-!
# A generated genesis, reloaded

The generator and the loader declare their JSON structures separately; the
validators are spliced into alloy's object on one side and taken out of it on
the other.

1. `takeValidators_splice`: the loader is left with alloy's object.
2. `sockets_resulting`: the sockets of a command, and that the loader parses them.
3. `load_written`: the loader on what a run has written.
4. `generated_genesis_reloads`: the validators of the command come back.
-/

namespace Allegro

open Fallible (orError orError_eq_ok bind_eq_ok mapM_eq_ok)

variable {ChainSpec : Type}

/-! ## What the libraries promise -/

/-- `value` is what the command writes to `genesis.json`. -/
def GenesisCmd.Writes (L : Libs ChainSpec) (cmd : GenesisCmd) (value : Json) : Prop :=
  ∃ sockets accounts genesisValue, cmd.sockets L = .ok sockets ∧
    GenesisCmd.alloc L = .ok accounts ∧
    L.genesisToValue (cmd.genesis accounts) = some genesisValue ∧
    value = GenesisCmd.spliceValidators (GenesisCmd.validatorsValue L sockets) genesisValue

/-- The libraries read back what they wrote: the JSON text and the genesis of the
command, hex, sockets and the keys of seeds. Alloy's genesis has no field
`validators`. -/
structure Libs.ReadsBack (L : Libs ChainSpec) (cmd : GenesisCmd) : Prop where
  json : ∀ value, cmd.Writes L value → L.fromStr (L.toStringPretty value) = some value
  genesis : ∀ accounts value, GenesisCmd.alloc L = .ok accounts →
    L.genesisToValue (cmd.genesis accounts) = some value →
    ∃ fields, value = .object fields ∧ "validators" ∉ fields.map Prod.fst ∧
      L.genesisFromValue value = some (cmd.genesis accounts)
  hex : ∀ bytes, L.hexDecode (L.hexEncode bytes) = some bytes
  socket : ∀ s addr, L.parseSocket s = some addr → L.parseSocket (L.showSocket addr) = some addr
  localhost : ∀ port : UInt16, L.parseSocket ("127.0.0.1:" ++ Text.decimal port.toNat) =
    some (.localhost port)
  publicKey : ∀ seed, L.decodePublicKey (L.publicKeyOfSeed seed).bytes =
    some (L.publicKeyOfSeed seed)

/-- The sockets a command stands for: consecutive local ports, none of which wraps, or
those of the list. -/
inductive GenesisCmd.Resulting (L : Libs ChainSpec) (cmd : GenesisCmd) : List SocketAddr → Prop
  | count {n : Nat} (hcount : Text.parseUnsigned 65535 cmd.validators = some n)
      (hports : ∀ i < n, cmd.basePort.toNat + i < 65536) :
      Resulting L cmd ((List.range n).map fun i =>
        .localhost (UInt16.ofNat (cmd.basePort.toNat + i)))
  | list {addrs : List SocketAddr} (hlist : Text.parseUnsigned 65535 cmd.validators = none)
      (hparse : List.Forall₂ (fun s addr => L.parseSocket (Text.trim s) = some addr)
        (Text.split ',' cmd.validators) addrs) :
      Resulting L cmd addrs

namespace GenesisReloadLemmas

variable {L : Libs ChainSpec} {cmd : GenesisCmd}

/-! ## Entries -/

/-- An entry of the generator, as the loader has it. -/
def fileEntry (v : ValidatorOutput) : ValidatorFileEntry :=
  ⟨v.index, v.publicKey, v.ingress, v.egress⟩

theorem indexFromValue_number (i : UInt16) :
    ValidatorFileEntry.indexFromValue (.number i.toNat) = some i := by
  show (if i.toNat < UInt16.size then some (UInt16.ofNat i.toNat) else none) = _
  rw [if_pos i.toNat_lt, UInt16.ofNat_toNat]

theorem fromValue_toValue (v : ValidatorOutput) :
    ValidatorFileEntry.fromValue v.toValue = some (fileEntry v) := by
  have hindex := indexFromValue_number v.index
  simp [ValidatorOutput.toValue, ValidatorFileEntry.fromValue, List.lookup_cons, hindex,
    ValidatorFileEntry.stringFromValue, fileEntry]

theorem listFromValue_toValue (vs : List ValidatorOutput) :
    ValidatorFileEntry.listFromValue (.array (vs.map ValidatorOutput.toValue)) =
      some (vs.map fileEntry) := by
  show (vs.map ValidatorOutput.toValue).mapM ValidatorFileEntry.fromValue = _
  induction vs with
  | nil => rfl
  | cons v vs ih =>
    rw [List.map_cons, List.mapM_cons, fromValue_toValue, ih]
    rfl

/-- An entry on a socket the loader parses, with the key of its index. -/
theorem parseEntry_validatorOutput (hL : L.ReadsBack cmd) {i : UInt16} {socket : String}
    {addr : SocketAddr} (hparse : L.parseSocket socket = some addr) :
    parseEntry L (fileEntry (GenesisCmd.validatorOutput L i socket)) =
      .ok ⟨L.publicKeyOfSeed i.toUInt64, addr, addr.ip⟩ := by
  have hhex := hL.hex (L.publicKeyOfSeed i.toUInt64).bytes
  have hkey := hL.publicKey i.toUInt64
  refine bind_eq_ok.mpr ⟨_, orError_eq_ok.mpr hhex, bind_eq_ok.mpr ⟨_, orError_eq_ok.mpr hkey, ?_⟩⟩
  exact bind_eq_ok.mpr ⟨addr, orError_eq_ok.mpr hparse, bind_eq_ok.mpr
    ⟨addr, orError_eq_ok.mpr hparse, rfl⟩⟩

/-- The casts of an index, through `u16` to the `u64` seed. -/
theorem toUInt64_ofNat {i : Nat} (hi : i < 65535) :
    (UInt16.ofNat i).toUInt64 = UInt64.ofNat i := by
  have h16 : UInt16.size = 65536 := rfl
  have h64 : UInt64.size = 2 ^ 64 := rfl
  rw [← UInt64.toNat_inj, UInt16.toNat_toUInt64, UInt16.toNat_ofNat_of_lt' (by omega),
    UInt64.toNat_ofNat_of_lt' (by omega)]

/-- All entries of a run, with the keys of their indices. -/
theorem mapM_parseEntry (hL : L.ReadsBack cmd) {sockets : List String} {addrs : List SocketAddr}
    (hlen : sockets.length ≤ 65535)
    (hparse : List.Forall₂ (fun s addr => L.parseSocket s = some addr) sockets addrs) :
    ((GenesisCmd.validatorOutputs L sockets).map fileEntry).mapM (parseEntry L) =
      .ok (ValidatorSet.devnetEntries L.publicKeyOfSeed addrs) := by
  rw [mapM_eq_ok, List.forall₂_iff_get]
  have hsame := hparse.length_eq
  refine ⟨by simp [GenesisCmd.validatorOutputs, ValidatorSet.devnetEntries, hsame], ?_⟩
  intro i hi hi'
  have hi : i < sockets.length := by simpa [GenesisCmd.validatorOutputs] using hi
  have hseed := toUInt64_ofNat (Nat.lt_of_lt_of_le hi hlen)
  have hsocket := (List.forall₂_iff_get.mp hparse).2 i hi (hsame ▸ hi)
  simp only [List.get_eq_getElem, List.getElem_map, GenesisCmd.validatorOutputs,
    List.getElem_mapIdx, ValidatorSet.devnetEntries] at hsocket ⊢
  rw [parseEntry_validatorOutput hL hsocket, hseed]

/-! ## The file -/

theorem takeValidators_splice {fields : Json.Fields} (validators : Json)
    (hnew : "validators" ∉ fields.map Prod.fst) :
    takeValidators (GenesisCmd.spliceValidators validators (.object fields)) =
      (some validators, .object fields) := by
  unfold GenesisCmd.spliceValidators takeValidators
  simp only
  rw [Json.remove_insert validators hnew]

/-- The sockets of a list are printed so that they are parsed to the same addresses. -/
theorem parsed_of_list (hL : L.ReadsBack cmd) {parts sockets : List String}
    (hsockets : List.Forall₂ (fun s socket => GenesisCmd.parseSocket L s = .ok socket)
      parts sockets) :
    ∃ addrs, List.Forall₂ (fun s addr => L.parseSocket (Text.trim s) = some addr) parts addrs ∧
      List.Forall₂ (fun s addr => L.parseSocket s = some addr) sockets addrs := by
  induction hsockets with
  | nil => exact ⟨[], .nil, .nil⟩
  | cons hsocket _ ih =>
    obtain ⟨addrs, hparts, haddrs⟩ := ih
    unfold GenesisCmd.parseSocket at hsocket
    split at hsocket
    · next addr haddr =>
      cases hsocket
      exact ⟨addr :: addrs, .cons haddr hparts, .cons (hL.socket _ addr haddr) haddrs⟩
    · exact nomatch hsocket

/-- The sockets of a command are parsed to the addresses it stands for. -/
theorem sockets_resulting (hL : L.ReadsBack cmd) {sockets : List String}
    (hsockets : cmd.sockets L = .ok sockets) :
    ∃ addrs, cmd.Resulting L addrs ∧
      List.Forall₂ (fun s addr => L.parseSocket s = some addr) sockets addrs := by
  unfold GenesisCmd.sockets at hsockets
  split at hsockets
  · next n hcount =>
    split at hsockets
    · exact nomatch hsockets
    · next hports =>
      have hports : ∀ i < n, cmd.basePort.toNat + i < 65536 := fun i hi => by omega
      refine ⟨_, .count hcount hports, ?_⟩
      cases hsockets
      rw [List.forall₂_map_left_iff, List.forall₂_map_right_iff, List.forall₂_same]
      intro i _
      have hport : cmd.basePort + UInt16.ofNat i = UInt16.ofNat (cmd.basePort.toNat + i) := by
        rw [UInt16.ofNat_add, UInt16.ofNat_toNat]
      rw [← hport]
      exact hL.localhost _
  · next hlist =>
    obtain ⟨addrs, hparts, haddrs⟩ := parsed_of_list hL (mapM_eq_ok.mp hsockets)
    exact ⟨addrs, .list hlist hparts, haddrs⟩

/-- The loader on a file with the value a run writes. -/
theorem load_of_read (hL : L.ReadsBack cmd) {fs : Fs} {path : String} {sockets : List String}
    {addrs : List SocketAddr} {accounts : HashMap EthAddress GenesisAccount} {value : Json}
    (hsockets : cmd.sockets L = .ok sockets) (hlen : sockets.length ≤ 65535)
    (hparse : List.Forall₂ (fun s addr => L.parseSocket s = some addr) sockets addrs)
    (haccounts : GenesisCmd.alloc L = .ok accounts)
    (hvalue : L.genesisToValue (cmd.genesis accounts) = some value)
    (hread : fs.readToString path = some (L.toStringPretty
      (GenesisCmd.spliceValidators (GenesisCmd.validatorsValue L sockets) value))) :
    loadChainWithValidators L fs path = .ok (L.fromGenesis (cmd.genesis accounts),
      ValidatorSet.fromEntries (ValidatorSet.devnetEntries L.publicKeyOfSeed addrs)) := by
  have hjson := hL.json _ ⟨sockets, accounts, value, hsockets, haccounts, hvalue, rfl⟩
  obtain ⟨fields, rfl, hnew, hgenesis⟩ := hL.genesis accounts value haccounts hvalue
  refine bind_eq_ok.mpr ⟨_, orError_eq_ok.mpr hread, bind_eq_ok.mpr ⟨_, orError_eq_ok.mpr hjson, ?_⟩⟩
  rw [takeValidators_splice _ hnew]
  refine bind_eq_ok.mpr ⟨some ((GenesisCmd.validatorOutputs L sockets).map fileEntry), ?_, ?_⟩
  · exact bind_eq_ok.mpr ⟨_, orError_eq_ok.mpr (listFromValue_toValue _), rfl⟩
  · refine bind_eq_ok.mpr ⟨_, orError_eq_ok.mpr hgenesis, bind_eq_ok.mpr ⟨_, ?_, rfl⟩⟩
    exact bind_eq_ok.mpr ⟨_, mapM_parseEntry hL hlen hparse, rfl⟩

/-- The loader after a successful run. -/
theorem load_written (hL : L.ReadsBack cmd) {fs : Fs} {out : GenesisOutput}
    (hrun : cmd.run L fs = .ok out) :
    ∃ sockets addrs accounts, cmd.sockets L = .ok sockets ∧ cmd.Resulting L addrs ∧
      List.Forall₂ (fun s addr => L.parseSocket s = some addr) sockets addrs ∧
      sockets.length ≤ 65535 ∧ out.validators = GenesisCmd.validatorOutputs L sockets ∧
      out.launch = out.validators.map cmd.launchCommand ∧
      loadChainWithValidators L out.fs cmd.genesisPath =
        .ok (L.fromGenesis (cmd.genesis accounts),
          ValidatorSet.fromEntries (ValidatorSet.devnetEntries L.publicKeyOfSeed addrs)) := by
  obtain ⟨sockets, accounts, value, fs₁, fs₂, -, hsockets, hlen, haccounts, hvalue, hwrite,
    hwrite', rfl⟩ := GenesisCmd.run_eq_ok.mp hrun
  obtain ⟨addrs, hresulting, hparse⟩ := sockets_resulting hL hsockets
  have hne : cmd.genesisPath ≠ cmd.validatorsPath := fun h => absurd (Fs.join_inj h) (by decide)
  have hread := (Fs.read_write_ne hne hwrite').trans (Fs.read_write_self hwrite)
  exact ⟨sockets, addrs, accounts, hsockets, hresulting, hparse, hlen, rfl, rfl,
    load_of_read hL hsockets hlen hparse haccounts hvalue hread⟩

end GenesisReloadLemmas

open GenesisReloadLemmas

/-- Whenever `GenesisCmd::run` succeeds, whatever count or list of sockets it was
given, the loader accepts the `genesis.json` it has written, and the set it returns is
the one in which the key of seed `i` has socket `i`, for each of the resulting sockets
and no other. A count gives consecutive ports without wrap-around. -/
theorem generated_genesis_reloads (L : Libs ChainSpec) (cmd : GenesisCmd) (hL : L.ReadsBack cmd)
    (hseed : Function.Injective L.publicKeyOfSeed) (fs : Fs) (out : GenesisOutput)
    (hrun : cmd.run L fs = .ok out) :
    ∃ addrs spec set, cmd.Resulting L addrs ∧ out.validators.length = addrs.length ∧
      loadChainWithValidators L out.fs cmd.genesisPath = .ok (spec, set) ∧
      set.IsDevnet L.publicKeyOfSeed addrs := by
  obtain ⟨sockets, addrs, accounts, -, hresulting, hparse, hlen, hvalidators, -, hload⟩ :=
    load_written hL hrun
  have hsame := hparse.length_eq
  refine ⟨addrs, _, _, hresulting, ?_, hload, ValidatorSet.isDevnet_fromEntries ?_⟩
  · rw [hvalidators, GenesisCmd.validatorOutputs, List.length_mapIdx, hsame]
  · exact ValidatorSet.seeds_distinct hseed (by omega)

/-! ## The libraries on a local devnet -/

namespace LocalDevnet

/-- `hex::encode`. -/
def hexEncode (bytes : Bytes) : String :=
  String.ofList (bytes.flatMap fun b => [Nat.digitChar (b.toNat / 16), Nat.digitChar (b.toNat % 16)])

def hexValue (c : Char) : Option Nat :=
  if c.isDigit then some (c.toNat - '0'.toNat)
  else if 'a' ≤ c ∧ c ≤ 'f' then some (c.toNat - 'a'.toNat + 10)
  else if 'A' ≤ c ∧ c ≤ 'F' then some (c.toNat - 'A'.toNat + 10)
  else none

def hexBytes : List Char → Option Bytes
  | [] => some []
  | high :: low :: rest => do
    let h ← hexValue high
    let l ← hexValue low
    let bytes ← hexBytes rest
    some (UInt8.ofNat (16 * h + l) :: bytes)
  | _ => none

theorem hexValue_digitChar : ∀ n < 16, hexValue (Nat.digitChar n) = some n := by decide

theorem hexBytes_encode (bytes : Bytes) : hexBytes (hexEncode bytes).toList = some bytes := by
  rw [hexEncode, String.toList_ofList]
  induction bytes with
  | nil => rfl
  | cons b bytes ih =>
    have hb := b.toNat_lt
    have hback : 16 * (b.toNat / 16) + b.toNat % 16 = b.toNat := Nat.div_add_mod _ _
    rw [List.flatMap_cons]
    simp only [List.cons_append, List.nil_append, hexBytes]
    rw [hexValue_digitChar _ (by omega), hexValue_digitChar _ (by omega), ih]
    show some (UInt8.ofNat (16 * (b.toNat / 16) + b.toNat % 16) :: bytes) = _
    rw [hback, UInt8.ofNat_toNat]

/-- The sockets of the loopback address. -/
def parseSocket (s : String) : Option SocketAddr :=
  if s.toList.take 10 = "127.0.0.1:".toList then
    (Text.parseUnsigned 65535 (String.ofList (s.toList.drop 10))).map fun port =>
      .localhost (UInt16.ofNat port)
  else none

def showSocket : SocketAddr → String
  | .v4 0x7f000001 port => "127.0.0.1:" ++ Text.decimal port.toNat
  | _ => ""

theorem parseSocket_localhost (port : UInt16) :
    parseSocket ("127.0.0.1:" ++ Text.decimal port.toNat) = some (.localhost port) := by
  have hlt : port.toNat ≤ 65535 := Nat.le_of_lt_succ port.toNat_lt
  have hten : "127.0.0.1:".toList.length = 10 := by decide
  unfold parseSocket
  rw [String.toList_append, List.take_left' hten, if_pos rfl, List.drop_left' hten,
    String.ofList_toList, Text.parseUnsigned_decimal, if_pos hlt, Option.map_some,
    UInt16.ofNat_toNat]

theorem parseSocket_showSocket {s : String} {addr : SocketAddr} (h : parseSocket s = some addr) :
    parseSocket (showSocket addr) = some addr := by
  unfold parseSocket at h
  split at h
  · obtain ⟨port, -, rfl⟩ := Option.map_eq_some_iff.mp h
    exact parseSocket_localhost _
  · exact nomatch h

/-- A key for each seed: its bytes. -/
def seedBytes : Nat → Nat → Bytes
  | 0, _ => []
  | k + 1, n => UInt8.ofNat (n % 256) :: seedBytes k (n / 256)

theorem seedBytes_length (k n : Nat) : (seedBytes k n).length = k := by
  induction k generalizing n with
  | zero => rfl
  | succ k ih => rw [seedBytes, List.length_cons, ih]

theorem seedBytes_inj {k n m : Nat} (hn : n < 256 ^ k) (hm : m < 256 ^ k)
    (heq : seedBytes k n = seedBytes k m) : n = m := by
  induction k generalizing n m with
  | zero => omega
  | succ k ih =>
    obtain ⟨hhead, htail⟩ := List.cons.inj heq
    have hlow := congrArg UInt8.toNat hhead
    rw [UInt8.toNat_ofNat', UInt8.toNat_ofNat'] at hlow
    rw [Nat.pow_succ] at hn hm
    have hhigh := ih (Nat.div_lt_of_lt_mul (by omega)) (Nat.div_lt_of_lt_mul (by omega)) htail
    omega

def publicKeyOfSeed (seed : UInt64) : PublicKey := ⟨seedBytes 32 seed.toNat, seedBytes_length _ _⟩

theorem publicKeyOfSeed_injective : Function.Injective publicKeyOfSeed := by
  intro a b heq
  have ha : a.toNat < 256 ^ 32 := Nat.lt_trans a.toNat_lt (by decide)
  have hb : b.toNat < 256 ^ 32 := Nat.lt_trans b.toNat_lt (by decide)
  exact UInt64.toNat_inj.mp (seedBytes_inj ha hb (congrArg PublicKey.bytes heq))

def decodePublicKey (bytes : Bytes) : Option PublicKey :=
  if h : bytes.length = 32 then some ⟨bytes, h⟩ else none

theorem decodePublicKey_bytes (key : PublicKey) : decodePublicKey key.bytes = some key :=
  dif_pos key.size

/-- An account for each index of the mnemonic. -/
def account (i : UInt32) : EthAddress := ⟨seedBytes 20 i.toNat, seedBytes_length _ _⟩

/-- `0x`-prefixed hex. -/
def hexString (bytes : Bytes) : Json := .string ("0x" ++ hexEncode bytes)

/-- Alloy's JSON of the generated genesis. -/
def genesisFields (g : AlloyGenesis) : Json.Fields :=
  [("config", .object [("chainId", .number g.config.chainId.toNat),
      ("homesteadBlock", .number 0), ("eip150Block", .number 0), ("eip155Block", .number 0),
      ("eip158Block", .number 0), ("byzantiumBlock", .number 0),
      ("constantinopleBlock", .number 0), ("petersburgBlock", .number 0),
      ("istanbulBlock", .number 0), ("muirGlacierBlock", .number 0), ("berlinBlock", .number 0),
      ("londonBlock", .number 0), ("arrowGlacierBlock", .number 0),
      ("grayGlacierBlock", .number 0), ("shanghaiTime", .number 0), ("cancunTime", .number 0),
      ("pragueTime", .number 0), ("osakaTime", .number 0),
      ("terminalTotalDifficulty", .number 0), ("terminalTotalDifficultyPassed", .bool false)]),
    ("nonce", .string "0x42"), ("timestamp", .string "0x0"), ("extraData", hexString g.extraData),
    ("gasLimit", .string "0x1c9c380"), ("difficulty", .string "0x0"),
    ("mixHash", hexString g.mixHash.bytes), ("coinbase", hexString g.coinbase.bytes),
    ("alloc", .object ((List.range prefundCount).map fun i =>
      ("0x" ++ hexEncode (account (UInt32.ofNat i)).bytes,
        .object [("balance", .string "0x21e19e0c9bab2400000")])))]

def genesisToValue (g : AlloyGenesis) : Json := .object (genesisFields g)

theorem validators_notMem_genesisFields (g : AlloyGenesis) :
    "validators" ∉ (genesisFields g).map Prod.fst := by
  unfold genesisFields
  simp

mutual

/-- `serde_json::to_string_pretty`, on strings that need no escape. -/
def pretty (indent : String) : Json → String
  | .null => "null"
  | .bool b => if b then "true" else "false"
  | .number n => toString n
  | .string s => "\"" ++ s ++ "\""
  | .array [] => "[]"
  | .array (item :: items) =>
    "[\n" ++ indent ++ "  " ++ pretty (indent ++ "  ") item ++ prettyItems (indent ++ "  ") items ++
      "\n" ++ indent ++ "]"
  | .object [] => "\x7b\x7d"
  | .object ((key, value) :: fields) =>
    "\x7b\n" ++ indent ++ "  \"" ++ key ++ "\": " ++ pretty (indent ++ "  ") value ++
      prettyFields (indent ++ "  ") fields ++ "\n" ++ indent ++ "\x7d"

def prettyItems (indent : String) : List Json → String
  | [] => ""
  | item :: items => ",\n" ++ indent ++ pretty indent item ++ prettyItems indent items

def prettyFields (indent : String) : List (String × Json) → String
  | [] => ""
  | (key, value) :: fields =>
    ",\n" ++ indent ++ "\"" ++ key ++ "\": " ++ pretty indent value ++ prettyFields indent fields

end

/-- The accounts of the mnemonic. -/
def accounts : HashMap EthAddress GenesisAccount :=
  (List.range prefundCount).foldl
    (fun alloc i => alloc.insert (account (UInt32.ofNat i)) ⟨10000000000000000000000⟩) ∅

/-- The libraries the generator uses. Nothing has been written yet that could be read. -/
def writerLibs : Libs AlloyGenesis where
  parseSocket := parseSocket
  showSocket := showSocket
  hexEncode := hexEncode
  hexDecode s := hexBytes s.toList
  publicKeyOfSeed := publicKeyOfSeed
  decodePublicKey := decodePublicKey
  toStringPretty := pretty ""
  fromStr _ := none
  genesisToValue g := some (genesisToValue g)
  genesisFromValue _ := none
  fromGenesis := id
  addressFromPhraseNth _ i := some (account i)

/-- The value a command writes, if it has sockets. -/
def written (cmd : GenesisCmd) : Option Json :=
  (cmd.sockets writerLibs).toOption.map fun sockets =>
    GenesisCmd.spliceValidators (GenesisCmd.validatorsValue writerLibs sockets)
      (genesisToValue (cmd.genesis accounts))

/-- The libraries, reading what the command has written. -/
def libs (cmd : GenesisCmd) : Libs AlloyGenesis :=
  { writerLibs with
    fromStr := fun s => (written cmd).filter fun value => pretty "" value == s
    genesisFromValue := fun value =>
      if pretty "" value = pretty "" (genesisToValue (cmd.genesis accounts)) then
        some (cmd.genesis accounts)
      else none }

theorem alloc_eq (cmd : GenesisCmd) : GenesisCmd.alloc (libs cmd) = .ok accounts :=
  List.foldlM_pure

theorem fromStr_written {cmd : GenesisCmd} {value : Json} (h : written cmd = some value) :
    (libs cmd).fromStr (pretty "" value) = some value := by
  show (written cmd).filter (fun v => pretty "" v == pretty "" value) = _
  rw [h]
  exact if_pos (BEq.refl (pretty "" value))

theorem genesisFromValue_genesisToValue (cmd : GenesisCmd) :
    (libs cmd).genesisFromValue (genesisToValue (cmd.genesis accounts)) =
      some (cmd.genesis accounts) := by
  unfold libs
  simp only [if_true]

theorem sockets_libs (cmd : GenesisCmd) : cmd.sockets (libs cmd) = cmd.sockets writerLibs := by
  have hparse : (libs cmd).parseSocket = writerLibs.parseSocket := (rfl : parseSocket = parseSocket)
  have hshow : (libs cmd).showSocket = writerLibs.showSocket := (rfl : showSocket = showSocket)
  have hsocket : GenesisCmd.parseSocket (libs cmd) = GenesisCmd.parseSocket writerLibs := by
    funext s
    rw [GenesisCmd.parseSocket, GenesisCmd.parseSocket, hparse, hshow]
  rw [GenesisCmd.sockets, GenesisCmd.sockets, hsocket]

theorem validatorsValue_libs (cmd : GenesisCmd) (sockets : List String) :
    GenesisCmd.validatorsValue (libs cmd) sockets =
      GenesisCmd.validatorsValue writerLibs sockets := by
  have hhex : (libs cmd).hexEncode = writerLibs.hexEncode := (rfl : hexEncode = hexEncode)
  have hkey : (libs cmd).publicKeyOfSeed = writerLibs.publicKeyOfSeed :=
    (rfl : publicKeyOfSeed = publicKeyOfSeed)
  simp only [GenesisCmd.validatorsValue, GenesisCmd.validatorOutputs, GenesisCmd.validatorOutput,
    hhex, hkey]

theorem written_of_writes {cmd : GenesisCmd} {value : Json} (h : cmd.Writes (libs cmd) value) :
    written cmd = some value := by
  obtain ⟨sockets, accs, genesisValue, hsockets, haccs, hgenesis, rfl⟩ := h
  rw [alloc_eq] at haccs
  obtain rfl := Except.ok.inj haccs
  obtain rfl : genesisToValue (cmd.genesis accounts) = genesisValue := Option.some.inj hgenesis
  rw [written, ← sockets_libs, hsockets, validatorsValue_libs]
  rfl

theorem libs_readsBack (cmd : GenesisCmd) : (libs cmd).ReadsBack cmd where
  json := fun _ h => fromStr_written (written_of_writes h)
  genesis := by
    intro accs value haccs hvalue
    rw [alloc_eq] at haccs
    obtain rfl := Except.ok.inj haccs
    obtain rfl : genesisToValue (cmd.genesis accounts) = value := Option.some.inj hvalue
    exact ⟨_, rfl, validators_notMem_genesisFields _, genesisFromValue_genesisToValue cmd⟩
  hex := hexBytes_encode
  socket := fun _ _ h => parseSocket_showSocket h
  localhost := parseSocket_localhost
  publicKey := fun seed => decodePublicKey_bytes (publicKeyOfSeed seed)

/-- A file system that takes every file. -/
def emptyFs : Fs := ⟨∅, fun _ => false⟩

/-- What a command with the given sockets leaves. -/
def output (cmd : GenesisCmd) (sockets : List String) : GenesisOutput :=
  let value := GenesisCmd.spliceValidators (GenesisCmd.validatorsValue (libs cmd) sockets)
    (genesisToValue (cmd.genesis accounts))
  let validators := GenesisCmd.validatorOutputs (libs cmd) sockets
  { fs := ⟨((∅ : HashMap String String).insert cmd.genesisPath (pretty "" value)).insert
      cmd.validatorsPath (pretty "" (GenesisCmd.validatorsValue (libs cmd) sockets)),
        fun _ => false⟩
    validators := validators
    launch := validators.map cmd.launchCommand
    stdout := cmd.stdout validators }

/-- On that file system, a command with few enough sockets succeeds. -/
theorem run_ok {cmd : GenesisCmd} {sockets : List String}
    (hsockets : cmd.sockets writerLibs = .ok sockets) (hlen : sockets.length ≤ 65535) :
    cmd.run (libs cmd) emptyFs = .ok (output cmd sockets) :=
  GenesisCmd.run_eq_ok.mpr ⟨sockets, accounts, genesisToValue (cmd.genesis accounts),
    ⟨(∅ : HashMap String String).insert cmd.genesisPath (pretty "" _), fun _ => false⟩, _, rfl,
    (sockets_libs cmd).trans hsockets, hlen, alloc_eq cmd, rfl, rfl, rfl, rfl⟩

end LocalDevnet

open LocalDevnet

/-- Two validators from port 13000 on. -/
def twoValidators : GenesisCmd := ⟨"2", 13000, 1337, "./devnet"⟩

theorem twoValidators_sockets :
    twoValidators.sockets writerLibs = .ok ["127.0.0.1:13000", "127.0.0.1:13001"] := by decide

/-- Their genesis reloads. -/
theorem two_validators_reload :
    (libs twoValidators).ReadsBack twoValidators ∧
      Function.Injective (libs twoValidators).publicKeyOfSeed ∧
      ∃ out addrs spec set, twoValidators.run (libs twoValidators) emptyFs = .ok out ∧
        twoValidators.Resulting (libs twoValidators) addrs ∧ out.validators.length = addrs.length ∧
        loadChainWithValidators (libs twoValidators) out.fs twoValidators.genesisPath =
          .ok (spec, set) ∧
        set.IsDevnet (libs twoValidators).publicKeyOfSeed addrs := by
  have hrun := run_ok twoValidators_sockets (by decide)
  obtain ⟨addrs, spec, set, hreload⟩ := generated_genesis_reloads _ twoValidators
    (libs_readsBack _) publicKeyOfSeed_injective _ _ hrun
  exact ⟨libs_readsBack _, publicKeyOfSeed_injective, _, addrs, spec, set, hrun, hreload⟩

end Allegro
