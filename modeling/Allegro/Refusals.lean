import Allegro.AllegroConsensus
import Allegro.Cluster
import Allegro.EngineApi

/-!
# Why a node of a cluster refuses

`handle_verify` answers `false` on many branches, and `handle_propose` drops its
responder on some. In a cluster of honest hosts whose execution layers are at service,
most of these are never taken.

A host here is a node and the view that it has of its execution layer, both from its
last start on. An execution layer at service finds a block valid that another one has
built, if it has found its parent valid, and it builds on a head that it has found
valid. Nothing is asked of it for a block that it was not told about, so it may lose
what it knew in a crash.

Results:
1. `inService_step`: at a host at service, every recorded block is found valid by the
   execution layer, and what the stores hold under a digest can be proposed.
2. `refusalsExplained_step`: the reasons that are left, for one step.
3. `refusals_explained`: the same for whole runs.
-/

namespace Allegro

open Run Node Relation

/-! ## The cluster -/

section Definitions

variable {A : Alloy}

/-- An execution layer at service, of which `v` is known. `Valid` says which blocks
execution layers find valid on top of their parents. -/
structure Reth.Serves (Valid : A.Block → Prop) (v : EngineView) (reth : Reth A) : Prop where
  buildsOnHead : reth.BuildsOnHead
  keepsTimestamp : reth.KeepsTimestamp
  resolves : ∀ attempt fcs attrs fcu id, reth.forkChoiceUpdated attempt fcs attrs = .ok fcu →
    fcu.payloadId = some id → ∃ block, reth.resolveKind id = some (.ok block)
  buildsValid : ∀ fcs attrs block, reth.Job fcs attrs block → Valid block
  accepts : ∀ block, Valid block → A.parentHash block.header ∈ v.valid →
    reth.newPayload block = .ok .valid

/-- One of the attempts of the build closure starts a job, if head, safe and finalized are
found valid, the latter two are ancestors of the head, and time does not go back. -/
def Reth.Starts (v : EngineView) (fcs : ForkchoiceState) (attrs : PayloadAttributes)
    (reth : Reth A) : Prop :=
  ∀ head, A.hashSlow head = fcs.headBlockHash → A.timestamp head ≤ attrs.timestamp →
    fcs.headBlockHash ∈ v.valid → fcs.safeBlockHash ∈ v.valid →
    fcs.finalizedBlockHash ∈ v.valid →
    ReflTransGen (ExecParent A) fcs.safeBlockHash fcs.headBlockHash →
    ReflTransGen (ExecParent A) fcs.finalizedBlockHash fcs.headBlockHash →
    ∃ attempt < 5, ∃ fcu, reth.forkChoiceUpdated attempt fcs (some attrs) = .ok fcu ∧
      fcu.payloadId.isSome

/-- The reth that answers in the step is at service, for the build that is under way. -/
def AtService (Valid : A.Block → Prop) (n : Node) (v : EngineView) (e : Node.Event (Reth A)) :
    Prop :=
  ∀ reth, e.env = some reth → reth.Serves Valid v ∧
    ∀ msg req finalized, n.stage = .building msg req → n.anchor = some finalized →
      reth.Starts v (buildForkchoice finalized req) (buildPayloadAttributesFromRequest req).2

variable (A) in
/-- A `false` is for a proposer that is no validator, for a block that is not there, or
for a parent that is not recorded. A `Propose` is dropped only if its parent is not
recorded, or does not descend from the block that the build is anchored at. -/
structure RefusalsExplained (n : Node) (e : Node.Event (Reth A)) : Prop where
  verify : ∀ msg, (n.prodStep A e).answers = n.answers ++ [.verified msg false] →
    n.validators.lookup msg.proposer = none ∨
      (n.pendingBlocks.value.lookup msg.payload = none ∧
        n.receivedBlocks.value.lookup msg.payload = none) ∨
      n.info msg.parent.2 = none
  propose : ∀ msg, (n.prodStep A e).answers = n.answers ++ [.proposed msg none] →
    n.info msg.parent.2 = none ∨
      ∃ finalized p, n.anchor = some finalized ∧ n.info msg.parent.2 = some p ∧
        ¬ ReflTransGen (ExecParent A) finalized.1 p.hash

variable (A) in
/-- A node of a cluster and its view of its execution layer. -/
def servedMachine : Machine (Node × EngineView) (Node.Event (Reth A)) Packet where
  step := fun p e => (p.1.prodStep A e, run EngineView.next p.2 (p.1.messages A e))
  receives := (clusterMachine A).receives
  sends := fun p => (clusterMachine A).sends p.1

/-- A host starts with the genesis block only. -/
def bootServed (c : Config A) : Node × EngineView := (Node.start c, EngineView.start c.genesis)

variable (A) in
/-- Its hosts crash and restart. -/
abbrev servedHosts : Machine (Config A × Node × EngineView) (Option (Node.Event (Reth A))) Packet :=
  (servedMachine A).restarting bootServed

/-- The start of the cluster. -/
abbrev servedStart {ι : Type} (cfg : ι → Config A) : Net ι (Config A × Node × EngineView) Packet :=
  Machine.booted bootServed cfg

/-- An execution layer finds the block valid, and its timestamps agree. -/
def Proposable (Valid : A.Block → Prop) (block : A.Block) : Prop :=
  Valid block ∧ Actor.timestampsAgree (blockMeta A block.header) = true

/-- The bytes are a block with that hash that can be proposed. -/
def CarriesProposable (Valid : A.Block → Prop) (bytes : Bytes) (hash : B256) : Prop :=
  ∃ block : A.Block, bytes = A.encode block ∧ A.hashSlow block.header = hash ∧
    Proposable Valid block

/-- The bytes that a node holds under a digest meet `P`. -/
structure StoresCarry (P : Bytes → B256 → Prop) (n : Node) : Prop where
  pending : ∀ d bytes, n.pendingBlocks.value.lookup d = some bytes → P bytes d.get
  received : ∀ d bytes, n.receivedBlocks.value.lookup d = some bytes → P bytes d.get
  validating : ∀ msg bytes ph, n.stage = .validating msg bytes ph → P bytes msg.payload.get

/-- A packet that is valid in the cluster, with a block that can be proposed. -/
structure Packet.Proposes (g : Genesis A) (Valid : A.Block → Prop) (packet : Packet) : Prop where
  valid : packet.Valid g
  block : ∀ data d bytes, packet = .block data → parseBlockMessage data = some (d, bytes) →
    CarriesProposable Valid bytes d.get

/-- What holds at every host. -/
structure InService (g : Genesis A) (Valid : A.Block → Prop) (n : Node) (v : EngineView) :
    Prop where
  sound : Sound g n
  stores : StoresCarry (CarriesProposable Valid) n
  hashes : EngineApiLemmas.HashesIn v.valid n
  exact : ∀ d i, n.info d = some i → i.Exact

end Definitions

namespace RefusalsLemmas

open ClusterLemmas EngineApiLemmas

variable {A : Alloy} {g : Genesis A} {Valid : A.Block → Prop} {n : Node} {v : EngineView}
  {e : Node.Event (Reth A)} {reth : Reth A}

/-! ## The build closure at service -/

theorem startPayload_of_started {fcs : ForkchoiceState} {attrs : PayloadAttributes}
    {attempts : List Nat} {lastErr : String}
    (h : ∃ attempt ∈ attempts, ∃ fcu, reth.forkChoiceUpdated attempt fcs (some attrs) = .ok fcu ∧
      fcu.payloadId.isSome) : ∃ id, startPayload reth fcs attrs attempts lastErr = .ok id := by
  induction attempts generalizing lastErr with
  | nil =>
    obtain ⟨_, hmem, -⟩ := h
    cases hmem
  | cons attempt rest ih =>
    rw [startPayload]
    obtain ⟨attempt', hmem, fcu', hfcu', hid'⟩ := h
    cases hf : reth.forkChoiceUpdated attempt fcs (some attrs) with
    | error e =>
      rcases List.mem_cons.mp hmem with rfl | hrest
      · cases hf.symm.trans hfcu'
      · exact ih ⟨attempt', hrest, fcu', hfcu', hid'⟩
    | ok fcu =>
      cases hid : fcu.payloadId with
      | some id =>
        simp only [hid]
        exact ⟨id, rfl⟩
      | none =>
        simp only [hid]
        rcases List.mem_cons.mp hmem with rfl | hrest
        · cases hf.symm.trans hfcu'
          rw [hid] at hid'
          cases hid'
        · exact ih ⟨attempt', hrest, fcu', hfcu', hid'⟩

/-- A build succeeds if an attempt starts a job, and what is built is found valid. -/
theorem buildClosure_of_started {finalized : Finalized} {req : BuildPayloadRequest}
    (hresolves : ∀ attempt fcs attrs fcu id, reth.forkChoiceUpdated attempt fcs attrs = .ok fcu →
      fcu.payloadId = some id → ∃ block, reth.resolveKind id = some (.ok block))
    (hstarts : ∃ attempt < 5, ∃ fcu, reth.forkChoiceUpdated attempt (buildForkchoice finalized req)
      (some (buildPayloadAttributesFromRequest req).2) = .ok fcu ∧ fcu.payloadId.isSome)
    (hvalid : ∀ block, reth.Job (buildForkchoice finalized req)
      (buildPayloadAttributesFromRequest req).2 block → reth.newPayload block = .ok .valid) :
    ∃ payload, buildClosure A reth finalized req = .ok payload := by
  obtain ⟨attempt, hlt, hfcu⟩ := hstarts
  have hid : ∃ id, startPayload reth (buildForkchoice finalized req)
      (buildPayloadAttributesFromRequest req).2 (List.range 5) "" = .ok id :=
    startPayload_of_started ⟨attempt, List.mem_range.mpr hlt, hfcu⟩
  obtain ⟨id, hid⟩ := hid
  obtain ⟨attempt', fcu, hfcu, hstarted⟩ := startPayload_ok hid
  obtain ⟨block, hres⟩ := hresolves _ _ _ _ _ hfcu hstarted
  have hnew := hvalid block ⟨attempt', fcu, id, hfcu, hstarted, hres⟩
  refine ⟨builtPayload A block, ?_⟩
  simp only [buildClosure, hid, hres, hnew]

/-! ## One step of a host -/

theorem storesCarry_start {P : Bytes → B256 → Prop} (c : Config A) :
    StoresCarry P (Node.start c) where
  pending := fun _ _ h => (nomatch h)
  received := fun _ _ h => (nomatch h)
  validating := fun _ _ _ h => (nomatch h)

theorem storesCarry_step {P : Bytes → B256 → Prop} (h : StoresCarry P n)
    (hbuilt : ∀ msg req reth finalized payload, e.env = some reth → n.stage = .building msg req →
      buildClosure A reth finalized req = .ok payload → P payload.blockBytes payload.blockHash)
    (hmsg : ∀ data d bytes, e = .blockMessage data → parseBlockMessage data = some (d, bytes) →
      P bytes d.get) : StoresCarry P (n.prodStep A e) where
  pending := by
    intro d bytes hb
    rcases pending_step_cases hb with
      hold | ⟨reth, msg, req, finalized, payload, rfl, hstage, -, hok, rfl, rfl⟩
    · exact h.pending d bytes hold
    · exact hbuilt msg req reth finalized payload rfl hstage hok
  received := by
    intro d bytes hb
    rcases received_step_cases hb with hold | ⟨data, hdata, hp⟩
    · exact h.received d bytes hold
    · exact hmsg data d bytes hdata hp
  validating := by
    intro msg bytes ph hstage
    rcases validating_step_cases hstage with hold | hold | hold
    · exact h.validating msg bytes ph hold
    · exact h.pending msg.payload bytes hold
    · exact h.received msg.payload bytes hold

/-- What an execution layer at service builds for a request can be proposed. -/
theorem proposable_of_job (hserves : reth.Serves Valid v) (hreq : n.RequestCurrent) {msg : Propose}
    {req : BuildPayloadRequest} {fcs : ForkchoiceState} {block : A.Block}
    (hstage : n.stage = .building msg req)
    (hjob : reth.Job fcs (buildPayloadAttributes req.parentHash req.timestamp) block) :
    Proposable Valid block := by
  refine ⟨hserves.buildsValid _ _ _ hjob, ?_⟩
  obtain ⟨nowMillis, rfl⟩ := hreq msg req hstage
  have htime := hserves.keepsTimestamp _ _ _ hjob
  refine beq_iff_eq.mpr (TimestampLemmas.agree_iff.mpr ?_)
  rw [htime]
  exact TimestampLemmas.fits_of_div _

theorem inService_start {c : Config A} (hc : c.genesis = g)
    (hfits : (A.timestamp g.header).toNat * 1000 < 2 ^ 64) :
    InService g Valid (Node.start c) (EngineView.start c.genesis) where
  sound := sound_start hc
  stores := storesCarry_start c
  hashes := hashesIn_start c
  exact := by
    intro d i hi
    rw [(App.info_new hi).2, hc]
    exact TimestampLemmas.saturatingMul_of_fits hfits

/-- The parent of a build that succeeds is recorded, and its block found valid. -/
theorem head_of_built (h : InService g Valid n v) (hserves : reth.Serves Valid v) {msg : Propose}
    {req : BuildPayloadRequest} {finalized : Finalized} {payload : BuiltPayload}
    (hstage : n.stage = .building msg req)
    (hb : buildClosure A reth finalized req = .ok payload) : req.parentHash ∈ v.valid := by
  obtain ⟨p, hp⟩ := Option.isSome_iff_exists.mp
    (OwnProposalsLemmas.recorded_of_built h.sound.request hserves.buildsOnHead hstage hb)
  obtain ⟨nowMillis, rfl⟩ := h.sound.request msg req hstage
  rw [(Actor.buildRequest_known nowMillis hp).1]
  exact h.hashes.records _ _ hp

/-- A block that a host at service records was found valid. -/
theorem valid_of_records (h : InService g Valid n v) (he : AtService Valid n v e) {d : Digest}
    {i : BlockInfo} (hrec : Records (createEnginePayloadBuilder A) n e d i) :
    i.hash ∈ (run EngineView.next v (n.messages A e)).valid := by
  cases hrec with
  | @proposed msg req finalized reth payload hstage hanchor hb =>
    have hserves := (he reth rfl).1
    obtain ⟨block, status, hjob, hnew, -, hmem, rfl⟩ := buildClosure_ok_imported hb
    have hparent : A.parentHash block.header ∈ v.valid := by
      rw [(hserves.buildsOnHead _ _ _ hjob).2.1]
      exact head_of_built h hserves hstage hb
    have hvalid := hserves.accepts block (hserves.buildsValid _ _ _ hjob) hparent
    obtain rfl : status = .valid := Except.ok.inj (hnew.symm.trans hvalid)
    simp only [Node.messages, hstage, hanchor, run_buildMessages_tail]
    exact mem_valid_of_imported hmem
  | verified hstage hv hm =>
    obtain ⟨block, hmem, rfl⟩ := validateClosure_valid_imported hv
    simp only [Node.messages, hstage]
    exact mem_valid_of_imported hmem

theorem honestReth_of_atService (he : AtService Valid n v e) : HonestReth e :=
  fun reth hr => ⟨(he reth hr).1.buildsOnHead, (he reth hr).1.keepsTimestamp⟩

theorem inService_step (hA : A.CollisionFree) (hz : A.NonZero) (hr : A.RoundTrips)
    (h : InService g Valid n v) (he : AtService Valid n v e)
    (hmsg : ∀ packet, (clusterMachine A).receives e = some packet → packet.Proposes g Valid) :
    InService g Valid (n.prodStep A e) (run EngineView.next v (n.messages A e)) where
  sound := sound_step hA hz hr h.sound (honestReth_of_atService he)
    fun packet hp => (hmsg packet hp).valid
  stores := by
    refine storesCarry_step h.stores ?_ ?_
    · intro msg req reth finalized payload henv hstage hb
      obtain ⟨block, hjob, rfl⟩ := buildClosure_ok hb
      exact ⟨block, rfl, rfl,
        proposable_of_job (he reth henv).1 h.sound.request hstage hjob⟩
    · rintro data d bytes rfl hp
      exact (hmsg (.block data) rfl).block data d bytes rfl hp
  hashes := h.hashes.step (valid_run v _) fun _ _ hrec => valid_of_records h he hrec
  exact := by
    intro d i hi
    rcases Node.info_step_cases hi with hold | hrec
    · exact h.exact d i hold
    · obtain ⟨parent, hon⟩ := recordsOn_of_records hrec
      exact (TimestampLemmas.exact_of_recordsOn h.sound.request
        (fun reth hreth => (he reth hreth).1.keepsTimestamp) hon).1

theorem proposes_sends (hA : A.CollisionFree) (hz : A.NonZero) (h : InService g Valid n v)
    (he : AtService Valid n v e) {packet : Packet}
    (hmem : packet ∈ (clusterMachine A).sends n e) : packet.Proposes g Valid := by
  refine ⟨valid_sends hA hz h.sound (honestReth_of_atService he) hmem, ?_⟩
  rintro data d bytes rfl hp
  rcases List.mem_append.mp hmem with hblock | hproposal
  · obtain ⟨data', hdata, heq⟩ := List.mem_map.mp hblock
    cases heq
    obtain ⟨digest, bytes', hlookup, rfl⟩ := mem_machine_sends hdata
    rw [parse_wireMessage] at hp
    cases hp
    exact h.stores.pending _ _ hlookup
  · obtain ⟨_, -, heq⟩ := List.mem_map.mp hproposal
    cases heq

/-! ## Refusals -/

/-- A block on a recorded parent is found valid, and its timestamps agree. -/
theorem accepts_of_recorded (hA : A.CollisionFree) (hz : A.NonZero) (hr : A.RoundTrips)
    (h : InService g Valid n v) (hserves : reth.Serves Valid v) {msg : Verify} {bytes : Bytes}
    {ph : B256} (hstage : n.stage = .validating msg bytes ph) {p : BlockInfo}
    (hp : n.info msg.parent.2 = some p) :
    Actor.Accepts (validateClosure A reth ⟨bytes, ph⟩) := by
  obtain ⟨block, rfl, -, hvalid, hagree⟩ := h.stores.validating _ _ _ hstage
  have hdec := hr block
  have hparent := (extendsRecord_of_sound hA hz hr h.sound hstage hdec hp).1
  have hnew : reth.newPayload block = .ok .valid := by
    refine hserves.accepts block hvalid ?_
    rw [hparent]
    exact h.hashes.records _ _ hp
  exact ⟨_, validateClosure_valid.mpr ⟨block, [], hdec, hnew, rfl⟩, hagree⟩

/-- A build on a recorded parent that descends from the anchor succeeds. -/
theorem built_of_recorded (h : InService g Valid n v) (hserves : reth.Serves Valid v)
    {msg : Propose} {req : BuildPayloadRequest} {finalized : Finalized}
    (hstage : n.stage = .building msg req) (hanchor : n.anchor = some finalized)
    (hstarts : reth.Starts v (buildForkchoice finalized req) (buildPayloadAttributesFromRequest req).2)
    {p : BlockInfo} (hp : n.info msg.parent.2 = some p)
    (hanc : ReflTransGen (ExecParent A) finalized.1 p.hash) :
    ∃ payload, buildClosure A reth finalized req = .ok payload := by
  obtain ⟨nowMillis, rfl⟩ := h.sound.request msg req hstage
  have hhead : (buildForkchoice finalized
      (Actor.buildRequest n.blockInfo.value msg nowMillis)).headBlockHash = p.hash :=
    (Actor.buildRequest_known nowMillis hp).1
  have hvalid : p.hash ∈ v.valid := h.hashes.records _ _ hp
  have hfinal : finalized.1 ∈ v.valid := h.hashes.anchor _ hanchor
  rw [← hhead] at hvalid hanc
  obtain ⟨hdr, -, -, ⟨-, hhash, -⟩, htime⟩ := h.sound.records _ _ hp
  have hle := AllegroConsensusLemmas.parent_seconds_le nowMillis (h.exact _ _ hp) hp
  rw [htime] at hle
  refine buildClosure_of_started hserves.resolves
    (hstarts hdr (hhash.symm.trans hhead.symm) hle hvalid hfinal hfinal hanc hanc) ?_
  intro block hjob
  refine hserves.accepts block (hserves.buildsValid _ _ _ hjob) ?_
  rw [(hserves.buildsOnHead _ _ _ hjob).2.1]
  exact hvalid

theorem refusalsExplained_step (hA : A.CollisionFree) (hz : A.NonZero) (hr : A.RoundTrips)
    (h : InService g Valid n v) (he : AtService Valid n v e) : RefusalsExplained A n e where
  verify := by
    intro msg hans
    obtain ⟨ae, hae, -, hresp⟩ := OwnProposalsLemmas.responds_of_answers hans
    cases hresp with
    | @rejected _ rest _ a hidle hrecv hlookup =>
      by_cases hv : n.validators.lookup msg.proposer = none
      · exact .inl hv
      · -- a validator's block that is there is not refused at the lookup
        refine .inr (.inl ((Actor.blockBytes_eq_none h.sound.healthy msg.payload).mp ?_))
        rw [Option.eq_none_iff_forall_ne_some]
        intro bytes hbytes
        have hknown := (Actor.verifyLookup_known (a := { n.toActor with receiver := rest })
          h.sound.healthy.pendingBlocks (Option.isSome_iff_ne_none.mpr hv)).2 bytes hbytes
        cases hlookup.symm.trans hknown
    | refused hstage hrefuses =>
      refine .inr (.inr ?_)
      obtain ⟨reth, rfl, hv⟩ := drives_validated hae hstage
      rw [Option.eq_none_iff_forall_ne_some]
      rintro p hp
      exact hrefuses (hv ▸ accepts_of_recorded hA hz hr h (he reth rfl).1 hstage hp)
  propose := by
    intro msg hans
    obtain ⟨ae, hae, -, hresp⟩ := OwnProposalsLemmas.responds_of_answers hans
    cases hresp with
    | dropped _ _ hpois =>
      rw [h.sound.healthy.blockInfo] at hpois
      cases hpois
    | failed hstage =>
      obtain ⟨reth, finalized, rfl, hanchor, hb⟩ := drives_built hae hstage
      obtain ⟨hserves, hstarts⟩ := he reth rfl
      cases hp : n.info msg.parent.2 with
      | none => exact .inl rfl
      | some p =>
        refine .inr ⟨finalized, p, hanchor, rfl, fun hanc => ?_⟩
        obtain ⟨payload, hok⟩ := built_of_recorded h hserves hstage hanchor
          (hstarts _ _ _ hstage hanchor) hp hanc
        cases hb.symm.trans hok

/-! ## Runs -/

variable {ι : Type} [DecidableEq ι] {cfg : ι → Config A}
  {es : List (ι × Option (Node.Event (Reth A)))}

theorem inService_run (hA : A.CollisionFree) (hz : A.NonZero) (hr : A.RoundTrips)
    (hcfg : ∀ i, (cfg i).genesis = g) (hfits : (A.timestamp g.header).toNat * 1000 < 2 ^ 64)
    (hserved : Along (servedHosts A).netStep
      (Machine.Local (Machine.WhileUp fun _ p e => AtService Valid p.1 p.2 e))
      (servedStart cfg) es) :
    Machine.Inv (fun p : Config A × Node × EngineView =>
        p.1.genesis = g ∧ InService g Valid p.2.1 p.2.2) (Packet.Proposes g Valid)
      (run (servedHosts A).netStep (servedStart cfg) es) :=
  Machine.restarting_invariant (K := fun c : Config A => c.genesis = g)
    (I := fun _ (p : Node × EngineView) => InService g Valid p.1 p.2)
    (fun _ hc => inService_start hc hfits)
    (fun _ _ _ _ hs hC hmsg => inService_step hA hz hr hs hC hmsg)
    (fun _ _ _ _ hs hC _ hmem => proposes_sends hA hz hs hC hmem) hcfg hserved

end RefusalsLemmas

open RefusalsLemmas

/-- Every block but genesis is valid on top of its parent. -/
def SampleHeader.NotGenesis (block : sampleAlloy.Block) : Prop := block.header ≠ SampleHeader.genesis

theorem sampleReth_serves (block : SampleHeader) (v : EngineView) :
    (sampleReth block).Serves SampleHeader.NotGenesis v where
  buildsOnHead := sampleReth_buildsOnHead block
  keepsTimestamp := sampleReth_keepsTimestamp block
  resolves := fun _ _ _ _ _ _ _ => ⟨⟨block, ()⟩, rfl⟩
  buildsValid := by
    intro fcs attrs b hjob
    obtain ⟨hb, hg, -⟩ := sampleReth_job hjob
    rw [SampleHeader.NotGenesis, hb]
    exact hg
  accepts := by
    rintro ⟨header, body⟩ hvalid -
    cases header with
    | genesis => exact absurd rfl hvalid
    | one | two | fork => rfl

/-- It starts a job on the parent of its block, for the time of its block. -/
theorem sampleReth_starts {block : SampleHeader} {v : EngineView} {fcs : ForkchoiceState}
    {attrs : PayloadAttributes} (hblock : block ≠ .genesis)
    (hhead : fcs.headBlockHash = block.parent.hash) (htime : attrs.timestamp = block.timestamp) :
    (sampleReth block).Starts v fcs attrs := by
  intro _ _ _ _ _ _ _ _
  refine ⟨0, by decide, _, rfl, ?_⟩
  rw [if_pos ⟨hblock, hhead, congrArg some htime⟩]
  rfl

/-- The condition on the steps of a host in a cluster at service. -/
abbrev ServedStep :
    Config sampleAlloy × Node × EngineView → Option (Node.Event (Reth sampleAlloy)) → Prop :=
  Machine.WhileUp fun _ p e => AtService SampleHeader.NotGenesis p.1 p.2 e

/-- A step without an answer of reth. -/
theorem served_quiet {p : Config sampleAlloy × Node × EngineView}
    {e : Node.Event (Reth sampleAlloy)} (henv : e.env = none) : ServedStep p (some e) := by
  rintro _ ⟨⟩ reth hreth
  cases henv.symm.trans hreth

/-- A step with an answer, where no build is under way. -/
theorem served_idle {p : Config sampleAlloy × Node × EngineView}
    {e : Node.Event (Reth sampleAlloy)} {block : SampleHeader}
    (henv : e.env = some (sampleReth block)) (hidle : ∀ msg req, p.2.1.stage ≠ .building msg req) :
    ServedStep p (some e) := by
  rintro _ ⟨⟩ reth hreth
  cases henv.symm.trans hreth
  exact ⟨sampleReth_serves block _, fun msg req _ hstage => absurd hstage (hidle msg req)⟩

/-- A step with an answer, at the build of the block. -/
theorem served_build {p : Config sampleAlloy × Node × EngineView}
    {e : Node.Event (Reth sampleAlloy)} {block : SampleHeader} {msg : Propose}
    {req : BuildPayloadRequest} (henv : e.env = some (sampleReth block)) (hblock : block ≠ .genesis)
    (hstage : p.2.1.stage = .building msg req) (hhead : req.parentHash = block.parent.hash)
    (htime : req.timestamp = block.timestamp) : ServedStep p (some e) := by
  rintro _ ⟨⟩ reth hreth
  cases henv.symm.trans hreth
  refine ⟨sampleReth_serves block _, fun msg' req' finalized hstage' _ => ?_⟩
  cases hstage.symm.trans hstage'
  exact sampleReth_starts hblock hhead htime

end Allegro
