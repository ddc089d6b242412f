import Allegro.GenesisFile
import Allegro.Lib.Fallible

/-!
# The chainspec loader

`crates/node/src/chainspec.rs`: `load_chain_with_validators` reads a genesis file,
takes the top-level `validators` out of it, and hands the rest to alloy.
-/

namespace Allegro

open Fallible (orError)

structure ValidatorFileEntry where
  index : UInt16
  publicKey : String
  ingress : String
  egress : String
deriving DecidableEq

namespace ValidatorFileEntry

/-- A `u16` in JSON. -/
def indexFromValue : Json → Option UInt16
  | .number (.ofNat n) => if n < UInt16.size then some (UInt16.ofNat n) else none
  | _ => none

def stringFromValue : Json → Option String
  | .string s => some s
  | _ => none

/-- `Deserialize` of one entry: an object with the four fields (others are ignored),
or an array of the four. -/
def fromValue : Json → Option ValidatorFileEntry
  | .object fields => do
    let index ← (fields.lookup "index").bind indexFromValue
    let publicKey ← (fields.lookup "publicKey").bind stringFromValue
    let ingress ← (fields.lookup "ingress").bind stringFromValue
    let egress ← (fields.lookup "egress").bind stringFromValue
    some ⟨index, publicKey, ingress, egress⟩
  | .array [index, publicKey, ingress, egress] => do
    let index ← indexFromValue index
    let publicKey ← stringFromValue publicKey
    let ingress ← stringFromValue ingress
    let egress ← stringFromValue egress
    some ⟨index, publicKey, ingress, egress⟩
  | _ => none

/-- `serde_json::from_value::<Vec<ValidatorFileEntry>>`. -/
def listFromValue : Json → Option (List ValidatorFileEntry)
  | .array items => items.mapM fromValue
  | _ => none

end ValidatorFileEntry

/-- The errors of `load_chain_with_validators`, with what their messages show. -/
inductive LoadError
  /-- "read genesis file …" -/
  | readGenesisFile (path : String)
  /-- "parse genesis JSON …" -/
  | parseGenesisJson (path : String)
  /-- "parse validators in genesis …" -/
  | parseValidators (path : String)
  /-- "parse genesis fields …" -/
  | parseGenesisFields (path : String)
  /-- "invalid hex public_key for validator …" -/
  | invalidHexPublicKey (index : UInt16) (publicKey : String)
  /-- "invalid public_key bytes for validator …" -/
  | invalidPublicKeyBytes (index : UInt16)
  /-- "invalid ingress address for validator …" -/
  | invalidIngress (index : UInt16) (ingress : String)
  /-- "invalid egress address for validator …" -/
  | invalidEgress (index : UInt16) (egress : String)
deriving DecidableEq

section Load

variable {ChainSpec : Type}

/-- The body of the loop over the entries. The file has a socket for the egress; only
its IP is kept. -/
def parseEntry (L : Libs ChainSpec) (e : ValidatorFileEntry) : Except LoadError ValidatorEntry := do
  let pkBytes ← orError (.invalidHexPublicKey e.index e.publicKey) (L.hexDecode e.publicKey)
  let publicKey ← orError (.invalidPublicKeyBytes e.index) (L.decodePublicKey pkBytes)
  let ingress ← orError (.invalidIngress e.index e.ingress) (L.parseSocket e.ingress)
  let egress ← orError (.invalidEgress e.index e.egress) (L.parseSocket e.egress)
  .ok ⟨publicKey, ingress, egress.ip⟩

/-- `value.as_object_mut().and_then(|obj| obj.remove("validators"))`, and what is left. -/
def takeValidators : Json → Option Json × Json
  | .object fields =>
    match Json.remove fields "validators" with
    | some (validators, rest) => (some validators, .object rest)
    | none => (none, .object fields)
  | value => (none, value)

/-- `.map(serde_json::from_value).transpose()` on the field. -/
def fileEntries (path : String) : Option Json → Except LoadError (Option (List ValidatorFileEntry))
  | some value => do
    let entries ← orError (.parseValidators path) (ValidatorFileEntry.listFromValue value)
    .ok (some entries)
  | none => .ok none

/-- The entries of the file, parsed. A file without `validators` has an empty set. -/
def parseValidators (L : Libs ChainSpec) :
    Option (List ValidatorFileEntry) → Except LoadError ValidatorSet
  | some entries => do
    let parsed ← entries.mapM (parseEntry L)
    .ok (ValidatorSet.fromEntries parsed)
  | none => .ok ∅

def loadChainWithValidators (L : Libs ChainSpec) (fs : Fs) (path : String) :
    Except LoadError (ChainSpec × ValidatorSet) := do
  let content ← orError (.readGenesisFile path) (fs.readToString path)
  let value ← orError (.parseGenesisJson path) (L.fromStr content)
  let (validators, value) := takeValidators value
  let validators ← fileEntries path validators
  let genesis ← orError (.parseGenesisFields path) (L.genesisFromValue value)
  let validatorSet ← parseValidators L validators
  .ok (L.fromGenesis genesis, validatorSet)

end Load

end Allegro
