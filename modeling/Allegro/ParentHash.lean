import Allegro.Node

/-!
# Do propose and verify agree on the parent?

For a `Propose` the parent hash is looked up in `block_info`. For a `Verify` the
parent's digest itself is handed to the builder. The two coincide where a record
sits under the hash of its block. The record of genesis does not: it sits under
the `EMPTY` digest. And `handle_verify` records a block under the payload it was
asked about, whatever the block hashes to.

So the two handlers agree on a parent exactly when its latest record was written
by a proposal of this node, or by a verification of a block with that hash, or,
for genesis, when the genesis hash is zero.

Results:
1. `lastOrigin_concat`, `info_hash_run`: the hash on record is that of its origin.
2. `parent_hashes_agree_iff`: when the two handlers agree, for every parent that
   is recorded in a reachable state, and when a builder that enforces the parent
   hash accepts what it has built.
3. `first_block_refused`: the first block after genesis.
-/

namespace Allegro

open Run Actor

/-- Where a record of `block_info` comes from. -/
inductive Origin
  | proposed (payload : BuiltPayload)
  | verified (blockMeta : BlockMeta)
deriving DecidableEq

/-- The hash that was recorded. -/
def Origin.hash : Origin → B256
  | proposed payload => payload.blockHash
  | verified blockMeta => blockMeta.hash

/-- What the step records under `d`. -/
def App.writes (s : App) (d : Digest) : App.Event → Option Origin
  | .built (.ok payload) =>
    match s.stage with
    | .building _ _ => if d = ⟨payload.blockHash⟩ then some (.proposed payload) else none
    | _ => none
  | .validated (.ok (.valid m)) =>
    match s.stage with
    | .validating msg _ _ =>
      if timestampsAgree m = true ∧ d = msg.payload then some (.verified m) else none
    | _ => none
  | _ => none

/-- The origin of the latest record that a run from `s` writes under `d`. -/
def lastOrigin (d : Digest) : App → List App.Event → Option Origin
  | _, [] => none
  | s, e :: es => (lastOrigin d (s.step e) es).or (s.writes d e)

/-- A record of this origin has its digest for its hash. Without an origin it is
the record of genesis. -/
def HashIsDigest (g : GenesisInfo) (d : Digest) : Option Origin → Prop
  | some (.proposed _) => True
  | some (.verified m) => m.hash = d.get
  | none => g.hash = B256.ZERO

/-- The builder enforces the parent hash it is given: it accepts a block it has
built exactly with the parent hash of the request. -/
def EnforcesParent (build : BuildPayloadRequest → Except String BuiltPayload)
    (validate : Bytes → B256 → Except String ValidationResult) : Prop :=
  ∀ req payload, build req = .ok payload →
    ∀ parentHash, Accepts (validate payload.blockBytes parentHash) ↔ parentHash = req.parentHash

namespace ParentHashLemmas

variable {s : App} {d : Digest} {e : App.Event}

/-! ## One step -/

theorem records_of_writes {o : Origin} (h : s.writes d e = some o) :
    ∃ i, App.Records s e d i ∧ i.hash = o.hash ∧ ∀ payload, o = .proposed payload →
      d = ⟨payload.blockHash⟩ := by
  unfold App.writes at h
  split at h
  · next payload =>
    split at h
    · next msg req hstage =>
      split at h
      · next hd =>
        cases h
        rw [hd]
        refine ⟨_, .proposed hstage, rfl, fun payload' hp => ?_⟩
        cases hp
        rfl
      · cases h
    · cases h
  · next m =>
    split at h
    · next msg bytes ph hstage =>
      split at h
      · next hd =>
        cases h
        rw [hd.2]
        exact ⟨_, .verified hstage hd.1, rfl, fun _ hp => (nomatch hp)⟩
      · cases h
    · cases h
  · cases h

theorem writes_of_records {i : BlockInfo} (h : App.Records s e d i) :
    ∃ o, s.writes d e = some o := by
  cases h with
  | @proposed msg req payload hstage =>
    simp only [App.writes, hstage, if_true]
    exact ⟨_, rfl⟩
  | @verified msg bytes ph m hstage hm =>
    simp only [App.writes, hstage, hm, and_self, if_true]
    exact ⟨_, rfl⟩

theorem lastOrigin_concat (es : List App.Event) :
    lastOrigin d s (es ++ [e]) =
      ((run App.step s es).writes d e).or (lastOrigin d s es) := by
  induction es generalizing s with
  | nil =>
    show (none : Option Origin).or (s.writes d e) = (s.writes d e).or none
    rw [Option.none_or, Option.or_none]
  | cons e' es ih =>
    show (lastOrigin d (s.step e') (es ++ [e])).or (s.writes d e') = _
    rw [ih, Option.or_assoc]
    rfl

/-! ## Runs -/

/-- The record of a digest, by the origin of its latest write. -/
def FromOrigin (g : GenesisInfo) (d : Digest) (i : BlockInfo) : Option Origin → Prop
  | some o => i.hash = o.hash ∧ ∀ payload, o = .proposed payload → d = ⟨payload.blockHash⟩
  | none => d = Digest.EMPTY ∧ i = g.record

theorem info_hash_run (validators : ValidatorSet) (metrics : Option ConsensusMetrics)
    (g : GenesisInfo) (es : List App.Event) :
    let start := App.new validators metrics g
    (run App.step start es).Healthy ∧ ∀ d i, (run App.step start es).info d = some i →
      FromOrigin g d i (lastOrigin d start es) := by
  intro start
  refine trace_invariant App.step start
    (P := fun es s => s.Healthy ∧ ∀ d i, s.info d = some i → FromOrigin g d i (lastOrigin d start es))
    ⟨App.healthy_new validators metrics g, fun d i hi => App.info_new hi⟩ ?_ es
  rintro es e ⟨hl, hrec⟩
  refine ⟨App.healthy_step e hl, fun d i hi => ?_⟩
  rw [lastOrigin_concat]
  cases hw : (run App.step start es).writes d e with
  | some o =>
    -- the step wrote the record that is there now
    obtain ⟨i', hrecords, hhash, hprop⟩ := records_of_writes hw
    rw [App.info_step_of_records hl.blockInfo hrecords] at hi
    cases hi
    exact ⟨hhash, hprop⟩
  | none =>
    rcases App.info_step_cases hi with hold | hnew
    · exact hrec d i hold
    · obtain ⟨o, ho⟩ := writes_of_records hnew
      rw [hw] at ho
      cases ho

theorem hash_eq_digest_iff {g : GenesisInfo} {i : BlockInfo} {o : Option Origin}
    (h : FromOrigin g d i o) : i.hash = d.get ↔ HashIsDigest g d o := by
  match o with
  | some (.proposed payload) =>
    obtain ⟨hhash, hd⟩ := h
    rw [hd payload rfl, hhash]
    exact ⟨fun _ => trivial, fun _ => rfl⟩
  | some (.verified m) =>
    rw [h.1]
    exact Iff.rfl
  | none =>
    obtain ⟨rfl, rfl⟩ := h
    exact Iff.rfl

end ParentHashLemmas

open ParentHashLemmas

/-- For every reachable state, every parent recorded in it, every `Propose` and
every `Verify` with that parent that get as far as the builder, at whichever node
the `Verify` is handled: the parent hash of the build request and the one handed
to the validation are the same exactly if the latest record of the parent has its
digest for its hash. A builder that enforces the parent hash accepts the block
that it has built for the request under the same condition. -/
theorem parent_hashes_agree_iff (validators : ValidatorSet) (metrics : Option ConsensusMetrics)
    (g : GenesisInfo) (es : List App.Event) (parent : Digest) :
    let start := App.new validators metrics g
    let s := run App.step start es
    ∀ i, s.info parent = some i →
      ∀ (propose : Propose) (nowMillis : UInt64) (a : Actor) (req : BuildPayloadRequest),
        propose.parent.2 = parent → s.proposeRequest propose nowMillis = (a, some req) →
      ∀ (verify : Verify) (b b' : Actor) (bytes : Bytes) (parentHash : B256),
        verify.parent.2 = parent → b.verifyLookup verify = (b', .validate bytes parentHash) →
      (req.parentHash = parentHash ↔ HashIsDigest g parent (lastOrigin parent start es)) ∧
      ∀ build validate payload, EnforcesParent build validate → build req = .ok payload →
        bytes = payload.blockBytes →
        (Accepts (validate bytes parentHash) ↔
          HashIsDigest g parent (lastOrigin parent start es)) := by
  intro start s i hi propose nowMillis a req hpropose hreq verify b b' bytes parentHash hverify hlook
  obtain ⟨hl, hrec⟩ := info_hash_run validators metrics g es
  obtain ⟨_, _, _, rfl, _⟩ := verifyLookup_eq_validate hlook
  rw [proposeRequest_eq hl.blockInfo] at hreq
  cases hreq
  subst hpropose
  have hhash : (buildRequest s.blockInfo.value propose nowMillis).parentHash = i.hash :=
    (buildRequest_known nowMillis hi).1
  have hagree : (buildRequest s.blockInfo.value propose nowMillis).parentHash = verify.parent.2.get ↔
      HashIsDigest g propose.parent.2 (lastOrigin propose.parent.2 start es) := by
    rw [hhash, hverify]
    exact hash_eq_digest_iff (hrec _ i hi)
  refine ⟨hagree, fun build validate payload henforce hbuild hbytes => ?_⟩
  rw [hbytes, henforce _ payload hbuild, ← hagree]
  exact eq_comm

/-! ## Two parents -/

namespace ParentHashLemmas

/-- The production closure behind a check of the parent hash. -/
def validateOnParent (bytes : Bytes) (parentHash : B256) : Except String ValidationResult :=
  match sampleAlloy.decode bytes with
  | .error e => .error ("rlp decode: " ++ e)
  | .ok (block, _) =>
    if sampleAlloy.parentHash block.header = parentHash then
      validateOne bytes parentHash
    else .ok (.invalid "unexpected parent")

theorem enforcesParent_sample : EnforcesParent buildOne validateOnParent := by
  intro req payload hbuild parentHash
  obtain ⟨block, hjob, rfl⟩ := buildClosure_ok hbuild
  obtain ⟨hblock, _, hhead, _⟩ := sampleReth_job hjob
  have hparent : req.parentHash = SampleHeader.genesis.hash := hhead
  obtain ⟨header, ⟨⟩⟩ := block
  have hone : header = SampleHeader.one := hblock
  subst hone
  rw [hparent]
  show Accepts (if SampleHeader.genesis.hash = parentHash then
    validateOne [2] parentHash
    else .ok (.invalid "unexpected parent")) ↔ _
  split
  · next heq => exact ⟨fun _ => heq.symm, fun _ => ⟨blockMeta sampleAlloy .one, rfl, by decide⟩⟩
  · next hne =>
    constructor
    · rintro ⟨m, hm, _⟩
      cases hm
    · intro heq
      exact absurd heq.symm hne

/-- Block `one` is proposed, and block `two` arrives. -/
def proposedOne : List App.Event :=
  [.enqueue (.propose (samplePropose .EMPTY 1)), .recv 11000,
    .built (.ok ⟨[2], SampleHeader.one.hash, 1, 11000⟩),
    .blockMessage (wireMessage SampleHeader.two.digest [3])]

end ParentHashLemmas

/-- On the node's own proposal both handlers take the same parent. -/
theorem own_parent_agrees :
    let s := run App.step (App.new sampleValidators none sampleGenesisInfo) proposedOne
    (s.info SampleHeader.one.digest).isSome ∧
      (s.verifyLookup (sampleVerify SampleHeader.one.digest SampleHeader.two.digest 2)).2 =
        .validate [3] SampleHeader.one.hash ∧
      (buildRequest s.blockInfo.value (samplePropose SampleHeader.one.digest 2) 12000).parentHash =
        SampleHeader.one.hash := by
  intro s
  have hverify : (s.verifyLookup (sampleVerify SampleHeader.one.digest SampleHeader.two.digest 2)).2 =
      .validate [3] SampleHeader.one.hash := by decide
  obtain ⟨i, hi⟩ : ∃ i, s.info SampleHeader.one.digest = some i :=
    Option.isSome_iff_exists.mp (by decide)
  have horigin : lastOrigin SampleHeader.one.digest
      (App.new sampleValidators none sampleGenesisInfo) proposedOne =
        some (.proposed ⟨[2], SampleHeader.one.hash, 1, 11000⟩) := by decide
  refine ⟨by rw [hi]; rfl, hverify, ?_⟩
  have h := (parent_hashes_agree_iff sampleValidators none sampleGenesisInfo proposedOne
    SampleHeader.one.digest i hi (samplePropose SampleHeader.one.digest 2) 12000 _ _ rfl
    (proposeRequest_eq rfl) (sampleVerify SampleHeader.one.digest SampleHeader.two.digest 2)
    s.toActor _ [3] SampleHeader.one.hash rfl (Prod.ext rfl hverify)).1
  refine h.mpr ?_
  rw [horigin]
  trivial

/-- The first block after genesis. It is built on the genesis hash, and validated
against the zero hash, so a builder that enforces the parent refuses its own block. -/
theorem first_block_refused :
    let a := Actor.fresh sampleValidators none sampleGenesisInfo
    let built := a.handlePropose (samplePropose .EMPTY 1) 11000 buildOne
    (a.info .EMPTY).isSome ∧
      (a.proposeRequest (samplePropose .EMPTY 1) 11000).2.map BuildPayloadRequest.parentHash =
        some SampleHeader.genesis.hash ∧
      (built.1.verifyLookup (sampleVerify .EMPTY SampleHeader.one.digest 1)).2 =
        .validate [2] B256.ZERO ∧
      SampleHeader.genesis.hash ≠ B256.ZERO ∧
      EnforcesParent buildOne validateOnParent ∧ built.2 = some SampleHeader.one.digest ∧
      (built.1.handleVerify (sampleVerify .EMPTY SampleHeader.one.digest 1)
        validateOnParent).2 = false := by
  intro a built
  exact ⟨by decide, by decide, by decide, by decide, enforcesParent_sample, by decide, by decide⟩

end Allegro
