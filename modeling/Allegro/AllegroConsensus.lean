import Allegro.Timestamps

/-!
# Header and attribute checks of the execution layer

`crates/node/src/allegro_consensus.rs`: `AllegroBeaconConsensus` and
`AllegroEngineValidator` relax reth's timestamp checks from `>` to `>=`, since
consecutive blocks may share a second. The other checks against the parent are
reth's own and are a parameter (`ParentChecks`).

A proposer asks for the seconds of a time past its parent's milliseconds, and
these are never below the parent's seconds. So its requests pass both checks,
whatever its clock reads.

Results:
1. `exact_run`: every record of a run has the milliseconds of its seconds, which
   are those of the header with its hash.
2. `parent_seconds_le`: the requested seconds against those of the parent.
3. `requested_timestamp_accepted`: both checks, in every run.
-/

namespace Allegro

open Run Node

/-! ## The checks -/

/-- The errors of `reth_consensus::ConsensusError`, as far as the node raises them. -/
inductive ConsensusError
  | timestampIsInPast (parentTimestamp timestamp : UInt64)
  | other (reason : String)
deriving DecidableEq

inductive InvalidPayloadAttributesError
  | invalidTimestamp
deriving DecidableEq

/-- Reth's checks of a header against its parent, other than the timestamp. -/
structure ParentChecks (A : Alloy) where
  BlobParams : Type
  hashNumber : A.Header → A.Header → Except ConsensusError Unit
  gasLimit : A.Header → A.Header → Except ConsensusError Unit
  eip1559BaseFee : A.Header → A.Header → Except ConsensusError Unit
  blobParamsAtTimestamp : UInt64 → Option BlobParams
  eip4844 : A.Header → A.Header → BlobParams → Except ConsensusError Unit

section Checks

variable {A : Alloy}

/-- The checks that follow the timestamp test. -/
def ParentChecks.rest (checks : ParentChecks A) (header parent : A.Header) :
    Except ConsensusError Unit := do
  checks.gasLimit header parent
  checks.eip1559BaseFee header parent
  match checks.blobParamsAtTimestamp (A.timestamp header) with
  | some blobParams => checks.eip4844 header parent blobParams
  | none => .ok ()

variable (A) in
/-- The timestamp test of `validate_header_against_parent`. -/
def timestampTest (header parent : A.Header) : Except ConsensusError Unit :=
  if A.timestamp header < A.timestamp parent then
    .error (.timestampIsInPast (A.timestamp parent) (A.timestamp header))
  else .ok ()

/-- `AllegroBeaconConsensus::validate_header_against_parent`. -/
def AllegroBeaconConsensus.validateHeaderAgainstParent (checks : ParentChecks A)
    (header parent : A.Header) : Except ConsensusError Unit := do
  checks.hashNumber header parent
  timestampTest A header parent
  checks.rest header parent

variable (A) in
/-- `AllegroEngineValidator::validate_payload_attributes_against_header`. -/
def AllegroEngineValidator.validatePayloadAttributesAgainstHeader (attr : PayloadAttributes)
    (header : A.Header) : Except InvalidPayloadAttributesError Unit :=
  if attr.timestamp < A.timestamp header then .error .invalidTimestamp else .ok ()

end Checks

section Definitions

variable (A : Alloy)

/-- The execution layer accepts the timestamp of a request on `parent`: the
attributes pass, and what is built from them passes the timestamp test, which
leaves the verdict on the header to the other checks. -/
structure AcceptedOn (req : BuildPayloadRequest) (parent : A.Header) : Prop where
  attributes : AllegroEngineValidator.validatePayloadAttributesAgainstHeader A
    (buildPayloadAttributesFromRequest req).2 parent = .ok ()
  built : ∀ (reth : Reth A) finalized payload, reth.KeepsTimestamp →
    buildClosure A reth finalized req = .ok payload →
    ∃ block, payload = builtPayload A block ∧ timestampTest A block.header parent = .ok () ∧
      ∀ checks : ParentChecks A,
        AllegroBeaconConsensus.validateHeaderAgainstParent checks block.header parent = do
          checks.hashNumber block.header parent
          checks.rest block.header parent

end Definitions

namespace AllegroConsensusLemmas

variable {A : Alloy}

/-- The seconds of a request are at least those of its recorded parent. -/
theorem parent_seconds_le {map : BlockInfoMap} {msg : Propose} (nowMillis : UInt64) {p : BlockInfo}
    (hexact : p.Exact) (hp : map.lookup msg.parent.2 = some p) :
    p.timestamp ≤ (Actor.buildRequest map msg nowMillis).timestamp := by
  have hlt := p.timestampMillis.toNat_lt
  rw [(Actor.buildRequest_known nowMillis hp).2.2.2, UInt64.le_iff_toNat_le, UInt64.toNat_div,
    UInt64.toNat_max, saturatingAdd_toNat]
  show _ ≤ max _ (min (p.timestampMillis.toNat + 1) (2 ^ 64 - 1)) / 1000
  rw [BlockInfo.Exact] at hexact
  omega

theorem acceptedOn_of_le {req : BuildPayloadRequest} {parent : A.Header}
    (h : A.timestamp parent ≤ req.timestamp) : AcceptedOn A req parent where
  attributes := if_neg (UInt64.not_lt.mpr h)
  built := by
    intro reth finalized payload hreth hb
    obtain ⟨block, rfl, htime⟩ := TimestampLemmas.buildClosure_timestamp hreth hb
    have htest : timestampTest A block.header parent = .ok () := by
      rw [timestampTest, htime]
      exact if_neg (UInt64.not_lt.mpr h)
    refine ⟨block, rfl, htest, fun checks => ?_⟩
    unfold AllegroBeaconConsensus.validateHeaderAgainstParent
    rw [htest]
    rfl

/-- With a genesis whose milliseconds fit, every record of a run is exact, and its
seconds are those of a header with its hash. -/
theorem exact_run {c : Config A}
    (hfits : (A.timestamp c.genesis.header).toNat * 1000 < 2 ^ 64)
    {es : List (Node.Event (Reth A))}
    (hreth : ∀ e ∈ es, ∀ reth, e.env = some reth → reth.KeepsTimestamp) :
    ∀ d i, (run (prodStep A) (Node.start c) es).info d = some i → i.Exact ∧ i.OfHeader A :=
  info_run ⟨TimestampLemmas.saturatingMul_of_fits hfits, c.genesis.header, rfl, rfl⟩
    (fun _ _ _ _ _ hreq he hrec => TimestampLemmas.exact_of_recordsOn hreq he hrec)
    (TimestampLemmas.keepsTimestamps_of_forall hreth)

end AllegroConsensusLemmas

open AllegroConsensusLemmas

/-- In every run with the production closures whose genesis milliseconds fit,
over a reth that builds headers with the requested timestamp, whatever the peers'
blocks and the clock readings: the milliseconds and the seconds of every record
agree, and the seconds are those of the header with the recorded hash. A
`Propose` on a recorded parent asks for at least the seconds of the parent, and
the execution layer accepts the timestamp on the parent's header. -/
theorem requested_timestamp_accepted {A : Alloy} (c : Config A)
    (hfits : (A.timestamp c.genesis.header).toNat * 1000 < 2 ^ 64)
    (es : List (Node.Event (Reth A)))
    (hreth : ∀ e ∈ es, ∀ reth, e.env = some reth → reth.KeepsTimestamp) :
    let n := run (prodStep A) (Node.start c) es
    (∀ d i, n.info d = some i → i.timestampMillis / 1000 = i.timestamp ∧
      (∃ h, A.hashSlow h = i.hash ∧ A.timestamp h = i.timestamp)) ∧
    (∀ msg nowMillis p req, n.info msg.parent.2 = some p →
      (n.proposeRequest msg nowMillis).2 = some req →
      p.timestamp ≤ req.timestamp ∧ req.parentHash = p.hash ∧
      (∃ parent, A.hashSlow parent = p.hash ∧ AcceptedOn A req parent) ∧
      (A.CollisionFree → ∀ parent, A.hashSlow parent = p.hash → AcceptedOn A req parent)) := by
  intro n
  have hexact := exact_run hfits hreth
  refine ⟨fun d i hi => ?_, fun msg nowMillis p req hp hr => ?_⟩
  · obtain ⟨hmillis, hheader⟩ := hexact d i hi
    refine ⟨?_, hheader⟩
    rw [← UInt64.toNat_inj, UInt64.toNat_div, hmillis]
    exact Nat.mul_div_cancel _ (by decide)
  · obtain ⟨hmillis, parent, hhash, htime⟩ := hexact _ p hp
    obtain rfl : Actor.buildRequest n.blockInfo.value msg nowMillis = req := by
      obtain ⟨map, hread, hreq⟩ := Option.map_eq_some_iff.mp hr
      obtain ⟨_, rfl⟩ := Lock.read_eq_some.mp hread
      exact hreq
    have hle := parent_seconds_le nowMillis hmillis hp
    have haccepted := acceptedOn_of_le (A := A) (htime.symm ▸ hle)
    refine ⟨hle, (Actor.buildRequest_known nowMillis hp).1, ⟨parent, hhash, haccepted⟩, ?_⟩
    intro hA parent' hhash'
    rw [hA (hhash'.trans hhash.symm)]
    exact haccepted

/-- A proposal on `two`, with a clock that has gone back to the epoch. -/
theorem backward_clock_accepted :
    let n := run (prodStep sampleAlloy) (Node.start sampleConfig) newSecondsRun
    let req := Actor.buildRequest n.blockInfo.value (samplePropose SampleHeader.two.digest 3) 0
    (12 : UInt64) ≤ req.timestamp ∧ AcceptedOn sampleAlloy req SampleHeader.two := by
  intro n req
  have hinfo : n.info SampleHeader.two.digest =
      some ⟨2, SampleHeader.two.hash, 2, sampleKey, 12, 12000⟩ := by decide
  have hreq : (n.proposeRequest (samplePropose SampleHeader.two.digest 3) 0).2 = some req := rfl
  obtain ⟨hle, _, _, haccepted⟩ := (requested_timestamp_accepted sampleConfig (by decide)
    newSecondsRun newSecondsRun_keepsTimestamp).2 _ 0 _ req hinfo hreq
  exact ⟨hle, haccepted sampleAlloy_collisionFree SampleHeader.two rfl⟩

end Allegro
