import Allegro.GenesisFile
import Allegro.Lib.Fallible
import Allegro.Lib.Text

/-!
# The genesis generator

`xtask/src/main.rs`: `GenesisCmd::run` writes `genesis.json`, with the validators
spliced into alloy's genesis, and prints how to launch each validator.
-/

namespace Allegro

open Fallible (orError orError_eq_ok bind_eq_ok)

/-- `ANVIL_MNEMONIC`. -/
def anvilMnemonic : String := "test test test test test test test test test test test junk"

/-- `PREFUND_COUNT`. -/
def prefundCount : Nat := 20

/-- The arguments of `allegro-xtask genesis`. -/
structure GenesisCmd where
  validators : String
  basePort : UInt16
  chainId : UInt64
  output : String
deriving DecidableEq

structure ValidatorOutput where
  index : UInt16
  publicKey : String
  ingress : String
  egress : String
deriving DecidableEq

/-- `Serialize`, in camel case. -/
def ValidatorOutput.toValue (v : ValidatorOutput) : Json :=
  .object [("index", .number v.index.toNat), ("publicKey", .string v.publicKey),
    ("ingress", .string v.ingress), ("egress", .string v.egress)]

/-- A printed launch command: its flags. -/
structure LaunchCommand where
  chain : String
  nodeIndex : String
  listenAddress : String
deriving DecidableEq

/-- The line printed for it. -/
def LaunchCommand.line (c : LaunchCommand) : String :=
  "  allegro node --chain " ++ c.chain ++ " --consensus.node-index " ++ c.nodeIndex ++
    " --consensus.listen-address " ++ c.listenAddress

/-- The errors of `GenesisCmd::run`, with what their messages show. -/
inductive GenesisError
  /-- "failed to create …" -/
  | createOutput (path : String)
  /-- "--base-port … with … validators exceeds the max port 65535" -/
  | portOverflow (basePort : UInt16) (n : Nat)
  /-- "invalid validator socket …" -/
  | invalidSocket (s : String)
  /-- "too many validators: … (max 65535)" -/
  | tooManyValidators (n : Nat)
  /-- "derive account … from mnemonic" -/
  | deriveAccount (i : UInt32)
  /-- "serialize genesis" -/
  | serializeGenesis
  /-- "write …" -/
  | write (path : String)
deriving DecidableEq

/-- What a run leaves: the file system, the validators and what was printed. -/
structure GenesisOutput where
  fs : Fs
  validators : List ValidatorOutput
  launch : List LaunchCommand
  stdout : List String

namespace GenesisCmd

variable {ChainSpec : Type}

/-- One socket of an explicit list. -/
def parseSocket (L : Libs ChainSpec) (s : String) : Except GenesisError String :=
  match L.parseSocket (Text.trim s) with
  | some addr => .ok (L.showSocket addr)
  | none => .error (.invalidSocket (Text.trim s))

/-- `--validators` is a count, with sockets from `--base-port` on, or a list of sockets. -/
def sockets (L : Libs ChainSpec) (cmd : GenesisCmd) : Except GenesisError (List String) :=
  match Text.parseUnsigned 65535 cmd.validators with
  | some n =>
    if 0 < n ∧ 65535 < cmd.basePort.toNat + (n - 1) then .error (.portOverflow cmd.basePort n)
    else .ok ((List.range n).map fun i =>
      "127.0.0.1:" ++ Text.decimal (cmd.basePort + UInt16.ofNat i).toNat)
  | none => (Text.split ',' cmd.validators).mapM (parseSocket L)

/-- The entry of validator `i`. -/
def validatorOutput (L : Libs ChainSpec) (i : UInt16) (socket : String) : ValidatorOutput where
  index := i
  publicKey := L.hexEncode (L.publicKeyOfSeed i.toUInt64).bytes
  ingress := socket
  egress := socket

def validatorOutputs (L : Libs ChainSpec) (sockets : List String) : List ValidatorOutput :=
  sockets.mapIdx fun i socket => validatorOutput L (UInt16.ofNat i) socket

/-- `serde_json::to_value(&validators)`. -/
def validatorsValue (L : Libs ChainSpec) (sockets : List String) : Json :=
  .array ((validatorOutputs L sockets).map ValidatorOutput.toValue)

/-- The accounts of the mnemonic, 10000 ETH each. -/
def alloc (L : Libs ChainSpec) : Except GenesisError (HashMap EthAddress GenesisAccount) :=
  (List.range prefundCount).foldlM (fun alloc i => do
    let addr ← orError (.deriveAccount (UInt32.ofNat i))
      (L.addressFromPhraseNth anvilMnemonic (UInt32.ofNat i))
    .ok (alloc.insert addr ⟨10000000000000000000000⟩)) ∅

/-- All forks at genesis, up to Osaka. -/
def config (cmd : GenesisCmd) : ChainConfig where
  chainId := cmd.chainId
  homesteadBlock := some 0
  eip150Block := some 0
  eip155Block := some 0
  eip158Block := some 0
  byzantiumBlock := some 0
  constantinopleBlock := some 0
  petersburgBlock := some 0
  istanbulBlock := some 0
  muirGlacierBlock := some 0
  berlinBlock := some 0
  londonBlock := some 0
  arrowGlacierBlock := some 0
  grayGlacierBlock := some 0
  terminalTotalDifficulty := some 0
  mergeNetsplitBlock := none
  shanghaiTime := some 0
  cancunTime := some 0
  pragueTime := some 0
  osakaTime := some 0
  amsterdamTime := none

def genesis (cmd : GenesisCmd) (alloc : HashMap EthAddress GenesisAccount) : AlloyGenesis where
  config := cmd.config
  nonce := 0x42
  timestamp := 0
  extraData := []
  gasLimit := 30000000
  difficulty := 0
  mixHash := B256.ZERO
  coinbase := EthAddress.ZERO
  alloc := alloc
  baseFeePerGas := none
  excessBlobGas := none
  blobGasUsed := none
  number := none
  parentHash := none

/-- The validators become a top-level field of the genesis, which is an object. -/
def spliceValidators (validators : Json) : Json → Json
  | .object fields => .object (Json.insert fields "validators" validators)
  | value => value

def genesisPath (cmd : GenesisCmd) : String := Fs.join cmd.output "genesis.json"

def validatorsPath (cmd : GenesisCmd) : String := Fs.join cmd.output "validators.json"

def launchCommand (cmd : GenesisCmd) (v : ValidatorOutput) : LaunchCommand where
  chain := cmd.genesisPath
  nodeIndex := Text.decimal v.index.toNat
  listenAddress := v.ingress

def stdout (cmd : GenesisCmd) (validators : List ValidatorOutput) : List String :=
  ["wrote genesis (with " ++ Text.decimal validators.length ++ " validators) to " ++
      cmd.genesisPath,
    "wrote " ++ Text.decimal validators.length ++ " validators to " ++ cmd.validatorsPath ++
      " (reference)",
    "",
    "To start a node (validators and their peers are embedded in genesis.json):"] ++
    validators.map fun v => (cmd.launchCommand v).line

def run (L : Libs ChainSpec) (fs : Fs) (cmd : GenesisCmd) : Except GenesisError GenesisOutput := do
  orError (.createOutput cmd.output) (fs.createDirAll cmd.output)
  let sockets ← cmd.sockets L
  if 65535 < sockets.length then .error (.tooManyValidators sockets.length)
  else
    let validators := validatorOutputs L sockets
    let alloc ← alloc L
    let genesisValue ← orError .serializeGenesis (L.genesisToValue (cmd.genesis alloc))
    let genesisValue := spliceValidators (validatorsValue L sockets) genesisValue
    let fs ← orError (.write cmd.genesisPath)
      (fs.write cmd.genesisPath (L.toStringPretty genesisValue))
    -- for reference; the node does not read it
    let fs ← orError (.write cmd.validatorsPath)
      (fs.write cmd.validatorsPath (L.toStringPretty (validatorsValue L sockets)))
    .ok ⟨fs, validators, validators.map cmd.launchCommand, cmd.stdout validators⟩

/-- The steps of a successful run. -/
theorem run_eq_ok {L : Libs ChainSpec} {fs : Fs} {cmd : GenesisCmd} {out : GenesisOutput} :
    cmd.run L fs = .ok out ↔
      ∃ sockets accounts value fs₁ fs₂,
        fs.createDirAll cmd.output = some () ∧ cmd.sockets L = .ok sockets ∧
        sockets.length ≤ 65535 ∧ alloc L = .ok accounts ∧
        L.genesisToValue (cmd.genesis accounts) = some value ∧
        fs.write cmd.genesisPath
          (L.toStringPretty (spliceValidators (validatorsValue L sockets) value)) = some fs₁ ∧
        fs₁.write cmd.validatorsPath (L.toStringPretty (validatorsValue L sockets)) = some fs₂ ∧
        out = ⟨fs₂, validatorOutputs L sockets,
          (validatorOutputs L sockets).map cmd.launchCommand,
          cmd.stdout (validatorOutputs L sockets)⟩ := by
  unfold run
  constructor
  · intro hok
    obtain ⟨⟨⟩, hdir, hok⟩ := bind_eq_ok.mp hok
    obtain ⟨sockets, hsockets, hok⟩ := bind_eq_ok.mp hok
    split at hok
    · exact nomatch hok
    · next hlen =>
      obtain ⟨accounts, haccounts, hok⟩ := bind_eq_ok.mp hok
      obtain ⟨value, hvalue, hok⟩ := bind_eq_ok.mp hok
      obtain ⟨fs₁, hwrite, hok⟩ := bind_eq_ok.mp hok
      obtain ⟨fs₂, hwrite', hok⟩ := bind_eq_ok.mp hok
      cases hok
      exact ⟨sockets, accounts, value, fs₁, fs₂, orError_eq_ok.mp hdir, hsockets,
        Nat.le_of_not_lt hlen, haccounts, orError_eq_ok.mp hvalue, orError_eq_ok.mp hwrite,
        orError_eq_ok.mp hwrite', rfl⟩
  · rintro ⟨sockets, accounts, value, fs₁, fs₂, hdir, hsockets, hlen, haccounts, hvalue, hwrite,
      hwrite', rfl⟩
    refine bind_eq_ok.mpr ⟨(), orError_eq_ok.mpr hdir, bind_eq_ok.mpr ⟨sockets, hsockets, ?_⟩⟩
    rw [if_neg (Nat.not_lt_of_le hlen)]
    exact bind_eq_ok.mpr ⟨accounts, haccounts, bind_eq_ok.mpr ⟨value, orError_eq_ok.mpr hvalue,
      bind_eq_ok.mpr ⟨fs₁, orError_eq_ok.mpr hwrite, bind_eq_ok.mpr
        ⟨fs₂, orError_eq_ok.mpr hwrite', rfl⟩⟩⟩⟩

end GenesisCmd

end Allegro
