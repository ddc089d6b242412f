import Allegro.Validators
import Allegro.Lib.Json

/-!
# The genesis file

What the generator (`xtask`) and the node (`crates/node/src/chainspec.rs`) share:
alloy's genesis type, with the fields the generator sets, and the file system.

The text formats come from libraries (`serde_json`, `hex`, the socket addresses of
the standard library, the ed25519 key codec, the mnemonic wallet); they are the
parameter `Libs`.
-/

namespace Allegro

/-! ## Alloy's genesis -/

/-- `alloy_primitives::Address`. -/
structure EthAddress where
  bytes : Bytes
  size : bytes.length = 20
deriving DecidableEq

/-- `Address::ZERO`. -/
def EthAddress.ZERO : EthAddress := ⟨List.replicate 20 0, List.length_replicate⟩

abbrev U256 := BitVec 256

/-- `alloy_genesis::ChainConfig`: the fields the generator sets. -/
structure ChainConfig where
  chainId : UInt64
  homesteadBlock : Option UInt64
  eip150Block : Option UInt64
  eip155Block : Option UInt64
  eip158Block : Option UInt64
  byzantiumBlock : Option UInt64
  constantinopleBlock : Option UInt64
  petersburgBlock : Option UInt64
  istanbulBlock : Option UInt64
  muirGlacierBlock : Option UInt64
  berlinBlock : Option UInt64
  londonBlock : Option UInt64
  arrowGlacierBlock : Option UInt64
  grayGlacierBlock : Option UInt64
  terminalTotalDifficulty : Option U256
  mergeNetsplitBlock : Option UInt64
  shanghaiTime : Option UInt64
  cancunTime : Option UInt64
  pragueTime : Option UInt64
  osakaTime : Option UInt64
  amsterdamTime : Option UInt64

/-- `GenesisAccount`: all but the balance is default. -/
structure GenesisAccount where
  balance : U256

/-- `alloy_genesis::Genesis`. -/
structure AlloyGenesis where
  config : ChainConfig
  nonce : UInt64
  timestamp : UInt64
  extraData : Bytes
  gasLimit : UInt64
  difficulty : U256
  mixHash : B256
  coinbase : EthAddress
  alloc : HashMap EthAddress GenesisAccount
  baseFeePerGas : Option Nat
  excessBlobGas : Option UInt64
  blobGasUsed : Option UInt64
  number : Option UInt64
  parentHash : Option B256

/-! ## The libraries -/

/-- The library functions on both sides of the file. `none` is an error of the library. -/
structure Libs (ChainSpec : Type) where
  /-- `s.parse::<SocketAddr>()` -/
  parseSocket : String → Option SocketAddr
  /-- `addr.to_string()` -/
  showSocket : SocketAddr → String
  hexEncode : Bytes → String
  hexDecode : String → Option Bytes
  /-- `PrivateKey::from_seed(seed).public_key()` -/
  publicKeyOfSeed : UInt64 → PublicKey
  /-- `PublicKey::decode` -/
  decodePublicKey : Bytes → Option PublicKey
  /-- `serde_json::to_string_pretty` -/
  toStringPretty : Json → String
  /-- `serde_json::from_str` -/
  fromStr : String → Option Json
  /-- `serde_json::to_value(&genesis)` -/
  genesisToValue : AlloyGenesis → Option Json
  /-- `serde_json::from_value::<Genesis>` -/
  genesisFromValue : Json → Option AlloyGenesis
  /-- `ChainSpec::from_genesis` -/
  fromGenesis : AlloyGenesis → ChainSpec
  /-- `MnemonicBuilder::try_from_phrase_nth(phrase, i)` and the address of the signer -/
  addressFromPhraseNth : String → UInt32 → Option EthAddress

/-! ## Files -/

/-- The file system: the files, and the paths that cannot be written. -/
structure Fs where
  files : HashMap String String
  refuses : String → Bool

namespace Fs

/-- `std::fs::create_dir_all`. -/
def createDirAll (fs : Fs) (path : String) : Option Unit :=
  if fs.refuses path then none else some ()

/-- `std::fs::write`: a file that is there is replaced. -/
def write (fs : Fs) (path content : String) : Option Fs :=
  if fs.refuses path then none else some { fs with files := fs.files.insert path content }

/-- `std::fs::read_to_string`. -/
def readToString (fs : Fs) (path : String) : Option String := fs.files.lookup path

theorem read_write_self {fs fs' : Fs} {path content : String}
    (h : fs.write path content = some fs') : fs'.readToString path = some content := by
  unfold write at h
  split at h
  · exact nomatch h
  · cases h
    exact Finmap.lookup_insert _

theorem read_write_ne {fs fs' : Fs} {path path' content : String} (hne : path' ≠ path)
    (h : fs.write path content = some fs') : fs'.readToString path' = fs.readToString path' := by
  unfold write at h
  split at h
  · exact nomatch h
  · cases h
    exact Finmap.lookup_insert_of_ne _ hne

/-- `Path::join` with a relative name. -/
def join (dir name : String) : String :=
  (if dir.toList.getLast? = none ∨ dir.toList.getLast? = some '/' then dir else dir ++ "/") ++ name

theorem join_inj {dir name name' : String} (h : join dir name = join dir name') : name = name' :=
  (String.append_right_inj _).mp h

end Fs

end Allegro
