import Allegro.Agreement
import Allegro.OwnProposals
import Allegro.Serving
import Allegro.Uniqueness
import Allegro.Lib.Restart

/-!
# A cluster of honest hosts that crash and restart

`handle_verify` does not compare a block with its consensus parent, and a node
keeps its records in memory only. A single node can therefore record a block
that does not extend its parent. In a cluster this takes a dishonest leader: an
honest node proposes what its reth builds on the recorded parent, and it stands
for nothing that others would have to check again.

A cluster has two networks. The block channel carries the blocks that relays
send. Consensus carries proposals: the engine asks a node to verify a digest on
a parent only if some node has proposed that digest on that parent. What was
sent stays on the wire, so both are delivered in any order, any number of times
or never. A host may restart at any time; its node then starts over.

Results:
1. `sound_step`, `valid_sends`: a sound node stays sound on valid packets, and
   sends only valid packets.
2. `cluster_records_connected`: whatever a node of the cluster records is
   connected to genesis, and is what the header says.
3. `cluster_verifications_extend`: every accepted block extends the record of its
   consensus parent.
-/

namespace Allegro

open Run Node

/-! ## The cluster -/

/-- What travels between hosts: a message of the block channel, or the proposal
of a digest on a parent. -/
inductive Packet
  | block (data : Bytes)
  | proposal (parent digest : Digest)
deriving DecidableEq

section Definitions

variable (A : Alloy)

/-- A node on the two networks. -/
def clusterMachine : Machine Node (Node.Event (Reth A)) Packet where
  step := prodStep A
  receives := fun
    | .blockMessage data => some (.block data)
    | .enqueue (.verify msg) => some (.proposal msg.parent.2 msg.payload)
    | _ => none
  sends := fun n e =>
    ((machine A).sends n e).map .block ++
      ((recordings A n e).filterMap Recording.proposal).map fun p => .proposal p.1.parent.2 p.2

/-- Its hosts crash and restart. -/
abbrev hosts : Machine (Config A × Node) (Option (Node.Event (Reth A))) Packet :=
  (clusterMachine A).restarting Node.start

variable {A}

/-- The start of a cluster. -/
abbrev clusterStart {ι : Type} (cfg : ι → Config A) : Net ι (Config A × Node) Packet :=
  Machine.booted Node.start cfg

/-- The hash of the block that a digest stands for, over the genesis `g`. -/
def Genesis.hashOf (g : Genesis A) (d : Digest) : B256 :=
  if d = Digest.EMPTY then A.hashSlow g.header else d.get

/-- Genesis, and whatever is a child of a connected block, with the next number. -/
inductive Connected (g : Genesis A) : A.Header → Prop
  | genesis : Connected g g.header
  | child {p h : A.Header} : Connected g p → A.parentHash h = A.hashSlow p →
      (A.number h).toNat = (A.number p).toNat + 1 → Connected g h

/-- The block of `d` is a child of the block of `p`, which is connected. -/
def Links (g : Genesis A) (p d : Digest) : Prop :=
  ∃ hp h, Connected g hp ∧ A.hashSlow hp = g.hashOf p ∧ A.hashSlow h = g.hashOf d ∧
    A.parentHash h = A.hashSlow hp ∧ (A.number h).toNat = (A.number hp).toNat + 1

/-- An honest block message, or a proposal that links. -/
def Packet.Valid (g : Genesis A) : Packet → Prop
  | .block data => HonestMessage A data
  | .proposal parent digest => Links g parent digest

/-- What holds of every node of the cluster. -/
structure Sound (g : Genesis A) (n : Node) : Prop where
  healthy : n.Healthy
  stores : HonestStores A n
  request : n.RequestCurrent
  genesis : n.info Digest.EMPTY = some g.info.record
  records : ∀ d i, n.info d = some i →
    ∃ h, Connected g h ∧ A.hashSlow h = g.hashOf d ∧ HeaderInfo A h i
  verifies : ∀ msg, .verify msg ∈ n.outstanding → Links g msg.parent.2 msg.payload

/-- The reth answers of the step are those of an honest reth. -/
def HonestReth (e : Node.Event (Reth A)) : Prop :=
  ∀ reth, e.env = some reth → reth.BuildsOnHead ∧ reth.KeepsTimestamp

end Definitions

namespace ClusterLemmas

variable {A : Alloy} {g : Genesis A} {n : Node} {e : Node.Event (Reth A)}

/-! ## Hashes -/

theorem hashOf_of_hash (hz : A.NonZero) {h : A.Header} {d : Digest} (hh : A.hashSlow h = d.get) :
    g.hashOf d = A.hashSlow h := by
  rw [Genesis.hashOf, if_neg (AnchorLemmas.ne_empty_of_hash hz hh), hh]

theorem hashOf_empty (g : Genesis A) : g.hashOf Digest.EMPTY = A.hashSlow g.header := if_pos rfl

theorem headerInfo_genesis (g : Genesis A) : HeaderInfo A g.header g.info.record :=
  ⟨⟨g.number_zero.symm, rfl, rfl⟩, rfl⟩

/-! ## One node -/

theorem sound_start {c : Config A} (hc : c.genesis = g) : Sound g (Node.start c) where
  healthy := App.healthy_new _ _ _
  stores := honestStores_start c
  request := App.requestCurrent_new _ _ _
  genesis := by
    rw [← hc]
    exact App.info_new_empty _ _ _
  records := by
    intro d i hi
    obtain ⟨rfl, rfl⟩ := App.info_new hi
    rw [hc]
    exact ⟨g.header, .genesis, (hashOf_empty g).symm, headerInfo_genesis g⟩
  verifies := fun _ h => absurd h List.not_mem_nil

/-- A block that reth builds is a child of the block recorded for the parent. -/
theorem links_of_built (hA : A.CollisionFree) (hz : A.NonZero) (h : Sound g n) {msg : Propose}
    {req : BuildPayloadRequest} {reth : Reth A} {finalized : Finalized} {payload : BuiltPayload}
    (hstage : n.stage = .building msg req) (hreth : reth.BuildsOnHead)
    (hb : buildClosure A reth finalized req = .ok payload) :
    Links g msg.parent.2 ⟨payload.blockHash⟩ := by
  obtain ⟨p, hp⟩ := Option.isSome_iff_exists.mp
    (OwnProposalsLemmas.recorded_of_built h.request hreth hstage hb)
  obtain ⟨block, hjob, rfl⟩ := buildClosure_ok hb
  obtain ⟨-, hparent, parent, hhash, hnumber⟩ := hreth _ _ _ hjob
  obtain ⟨nowMillis, rfl⟩ := h.request msg req hstage
  obtain ⟨hdr, hcon, hhdr, ⟨-, hih, -⟩, -⟩ := h.records _ _ hp
  have hreq : (Actor.buildRequest n.blockInfo.value msg nowMillis).parentHash = p.hash :=
    (Actor.buildRequest_known nowMillis hp).1
  obtain rfl : parent = hdr := hA ((hhash.trans hreq).trans hih)
  exact ⟨parent, block.header, hcon, hhdr, (hashOf_of_hash hz rfl).symm, hparent.trans hhash.symm,
    hnumber⟩

/-- What a sound node records on valid packets is connected. -/
theorem connected_of_records (hA : A.CollisionFree) (hz : A.NonZero) (h : Sound g n)
    (hreth : HonestReth e) {d : Digest} {i : BlockInfo}
    (hrec : Records (createEnginePayloadBuilder A) n e d i) {hdr : A.Header}
    (hhash : A.hashSlow hdr = d.get) : Connected g hdr := by
  have hlinks : ∃ p, Links g p d := by
    cases hrec with
    | proposed hstage hanchor hb =>
      exact ⟨_, links_of_built hA hz h hstage (hreth _ rfl).1 hb⟩
    | @verified msg _ _ _ _ hstage _ _ =>
      refine ⟨_, h.verifies msg ?_⟩
      rw [App.outstanding, hstage]
      exact List.mem_cons_self
  obtain ⟨p, hp, h', hcon, -, hh', hparent, hnumber⟩ := hlinks
  obtain rfl : h' = hdr := hA (hh'.trans (hashOf_of_hash hz hhash))
  exact .child hcon hparent hnumber

theorem sound_step (hA : A.CollisionFree) (hz : A.NonZero) (hr : A.RoundTrips) (h : Sound g n)
    (hreth : HonestReth e)
    (hmsg : ∀ packet, (clusterMachine A).receives e = some packet → packet.Valid g) :
    Sound g (n.prodStep A e) where
  healthy := Node.healthy_step e h.healthy
  stores := by
    refine honestStores_step h.stores fun data he => ?_
    subst he
    exact hmsg (.block data) rfl
  request := Node.requestCurrent_step e h.request
  genesis := by
    obtain ⟨i, hi, rfl | hrec⟩ := info_step_some (B := createEnginePayloadBuilder A) e h.genesis
    · exact hi
    · -- nothing is recorded under `EMPTY`: it is the hash of no block
      obtain ⟨hdr, hhash, -⟩ := header_of_records hr h.stores hrec
      exact absurd rfl (AnchorLemmas.ne_empty_of_hash hz hhash)
  records := by
    intro d i hi
    rcases Node.info_step_cases hi with hold | hrec
    · exact h.records d i hold
    · obtain ⟨hdr, hhash, hread, htime⟩ := header_of_records hr h.stores hrec
      refine ⟨hdr, connected_of_records hA hz h hreth hrec hhash, (hashOf_of_hash hz hhash).symm,
        hread, ?_⟩
      rcases htime with htime | ⟨reth, fcs, attrs, block, henv, hjob, rfl, htime⟩
      · exact htime
      · rw [htime]
        exact ((hreth reth henv).2 fcs attrs block hjob).symm
  verifies := by
    intro msg hmem
    rcases ServingLemmas.mem_outstanding_step hmem with hold | rfl
    · exact h.verifies msg hold
    · exact hmsg _ rfl

theorem valid_sends (hA : A.CollisionFree) (hz : A.NonZero) (h : Sound g n) (hreth : HonestReth e)
    {packet : Packet} (hmem : packet ∈ (clusterMachine A).sends n e) : packet.Valid g := by
  rcases List.mem_append.mp hmem with hblock | hproposal
  · obtain ⟨data, hdata, rfl⟩ := List.mem_map.mp hblock
    obtain ⟨digest, bytes, hlookup, rfl⟩ := mem_machine_sends hdata
    intro d bytes' hp
    rw [parse_wireMessage] at hp
    cases hp
    exact h.stores.pending digest bytes hlookup
  · obtain ⟨⟨msg, d⟩, hp, rfl⟩ := List.mem_map.mp hproposal
    obtain ⟨r, hrec, hprop⟩ := List.mem_filterMap.mp hp
    cases r with
    | verified msg => cases hprop
    | built msg req reth payload =>
      obtain ⟨finalized, rfl, hstage, -, hb⟩ := UniquenessLemmas.built_mem_recordings hrec
      cases hprop
      exact links_of_built hA hz h hstage (hreth reth rfl).1 hb

/-- A block under verification extends the record of its consensus parent. -/
theorem extendsRecord_of_sound (hA : A.CollisionFree) (hz : A.NonZero) (hr : A.RoundTrips)
    (h : Sound g n) {msg : Verify} {bytes rest : Bytes} {ph : B256} {block : A.Block} {p : BlockInfo}
    (hstage : n.stage = .validating msg bytes ph) (hdec : A.decode bytes = .ok (block, rest))
    (hp : n.info msg.parent.2 = some p) : ExtendsRecord A block.header p := by
  have hout : .verify msg ∈ n.outstanding := by
    rw [App.outstanding, hstage]
    exact List.mem_cons_self
  obtain ⟨hp', h', -, hhp', hh', hparent, hnumber⟩ := h.verifies msg hout
  have hhash := (h.stores.validating msg bytes ph hstage).decode hr hdec
  obtain rfl : h' = block.header := hA (hh'.trans (hashOf_of_hash hz hhash))
  obtain ⟨hdr, -, hhdr, ⟨hnum, hih, -⟩, -⟩ := h.records _ _ hp
  obtain rfl : hdr = hp' := hA (hhdr.trans hhp'.symm)
  rw [ExtendsRecord, hparent, hih, hnumber, hnum]
  exact ⟨rfl, rfl⟩

/-! ## Runs -/

variable {ι : Type} [DecidableEq ι] {cfg : ι → Config A}
  {es : List (ι × Option (Node.Event (Reth A)))}

theorem cluster_invariant (hA : A.CollisionFree) (hz : A.NonZero) (hr : A.RoundTrips)
    (hcfg : ∀ i, (cfg i).genesis = g)
    (hreth : ∀ ie ∈ es, ∀ e, ie.2 = some e → HonestReth e) :
    Machine.Inv (fun p : Config A × Node => p.1.genesis = g ∧ Sound g p.2) (Packet.Valid g)
      (run (hosts A).netStep (clusterStart cfg) es) :=
  Machine.restarting_invariant (K := fun c : Config A => c.genesis = g)
    (C := fun _ _ e => HonestReth e) (fun _ hc => sound_start hc)
    (fun _ _ _ _ hs hC hmsg => sound_step hA hz hr hs hC hmsg)
    (fun _ _ _ _ hs hC _ hmem => valid_sends hA hz hs hC hmem) hcfg
    (along_of_forall (D := fun ie : ι × Option (Node.Event (Reth A)) =>
      ∀ e, ie.2 = some e → HonestReth e) hreth)

end ClusterLemmas

open ClusterLemmas

section Results

variable {A : Alloy} {ι : Type} [DecidableEq ι]

/-- In a cluster of any number of hosts on one genesis, whatever the order of their
steps, their restarts and the deliveries on both networks: at every point of the
run, every node has genesis on record under `EMPTY`, and every record is that of
a block connected to genesis, as its header says, and of the block that its
digest names. -/
theorem cluster_records_connected (hA : A.CollisionFree) (hz : A.NonZero) (hr : A.RoundTrips)
    (g : Genesis A) (cfg : ι → Config A) (hcfg : ∀ i, (cfg i).genesis = g)
    (es : List (ι × Option (Node.Event (Reth A))))
    (hreth : ∀ ie ∈ es, ∀ e, ie.2 = some e → HonestReth e) (i : ι) :
    let n := ((run (hosts A).netStep (clusterStart cfg) es).party i).2
    n.info Digest.EMPTY = some g.info.record ∧
      ∀ d info, n.info d = some info →
        ∃ h, Connected g h ∧ A.hashSlow h = g.hashOf d ∧ HeaderInfo A h info := by
  obtain ⟨-, hsound⟩ := (cluster_invariant hA hz hr hcfg hreth).party i
  exact ⟨hsound.genesis, hsound.records⟩

/-- In such a cluster every `true` to a `Verify` whose parent is recorded is for a
block that extends the record, with its hash and the next number, although no
node compares the two. -/
theorem cluster_verifications_extend (hA : A.CollisionFree) (hz : A.NonZero) (hr : A.RoundTrips)
    (g : Genesis A) (cfg : ι → Config A) (hcfg : ∀ i, (cfg i).genesis = g)
    (es : List (ι × Option (Node.Event (Reth A))))
    (hreth : ∀ ie ∈ es, ∀ e, ie.2 = some e → HonestReth e) :
    Along (hosts A).netStep
      (Machine.Local (Machine.WhileUp fun _ n e => VerifiedExtends A n e))
      (clusterStart cfg) es := by
  refine along_of_splits fun es₁ ie es₂ hes => ?_
  have hreth₁ : ∀ ie ∈ es₁, ∀ e, ie.2 = some e → HonestReth e :=
    fun ie hie => hreth ie (by rw [hes]; exact List.mem_append_left _ hie)
  have hsound := ((cluster_invariant hA hz hr hcfg hreth₁).party ie.1).2
  intro e _ msg bytes ph block rest p hstage hdec hp _
  exact extendsRecord_of_sound hA hz hr hsound hstage hdec hp

end Results

/-! ## A cluster of two -/

/-- `true` proposes block `one` and broadcasts it. `false` receives it and crashes;
restarted, it receives it once more and verifies it. -/
def clusterRun : List (Bool × Option (Node.Event (Reth sampleAlloy))) :=
  [(true, some (.enqueue (.propose (samplePropose .EMPTY 1)))), (true, some (.recv 11000)),
    (true, some .buildFcu), (true, some (.built (sampleReth .one))),
    (true, some (.broadcast SampleHeader.one.digest (.propose ⟨0, 1⟩) ⟨fun _ => true, true⟩)),
    (false, some (.blockMessage (wireMessage SampleHeader.one.digest [2]))), (false, none),
    (false, some (.blockMessage (wireMessage SampleHeader.one.digest [2]))),
    (false, some (.enqueue (.verify (sampleVerify .EMPTY SampleHeader.one.digest 1)))),
    (false, some (.recv 0)), (false, some (.validated (sampleReth .one)))]

theorem honestReth_of_sample {es : List (Bool × Option (Node.Event (Reth sampleAlloy)))}
    (h : ∀ ie ∈ es, ∀ e, ie.2 = some e → ∀ reth, e.env = some reth → reth = sampleReth .one) :
    ∀ ie ∈ es, ∀ e, ie.2 = some e → HonestReth e := by
  intro ie hie e he reth hr
  rw [h ie hie e he reth hr]
  exact ⟨sampleReth_buildsOnHead .one, sampleReth_keepsTimestamp .one⟩

theorem clusterRun_honestReth : ∀ ie ∈ clusterRun, ∀ e, ie.2 = some e → HonestReth e := by
  refine honestReth_of_sample fun ie hie e he reth hr => ?_
  simp only [clusterRun, List.mem_cons, List.not_mem_nil, or_false] at hie
  rcases hie with rfl | rfl | rfl | rfl | rfl | rfl | rfl | rfl | rfl | rfl | rfl <;> cases he <;>
    cases hr
  · rfl
  · rfl

theorem restarted_host_records_one :
    ∃ h, Connected sampleConfig.genesis h ∧
      sampleAlloy.hashSlow h = sampleConfig.genesis.hashOf SampleHeader.one.digest ∧
      HeaderInfo sampleAlloy h ⟨1, SampleHeader.one.hash, 1, sampleKey, 11, 11000⟩ :=
  (cluster_records_connected sampleAlloy_collisionFree sampleAlloy_nonZero sampleAlloy_roundTrips
    sampleConfig.genesis (fun _ : Bool => sampleConfig) (fun _ => rfl) clusterRun
    clusterRun_honestReth false).2 SampleHeader.one.digest _ (by decide)

theorem restarted_host_verification_extends :
    ((run (hosts sampleAlloy).netStep (clusterStart fun _ => sampleConfig) clusterRun).party
        false).2.answers = [.verified (sampleVerify .EMPTY SampleHeader.one.digest 1) true] ∧
      Along (hosts sampleAlloy).netStep
        (Machine.Local (Machine.WhileUp fun _ n e => VerifiedExtends sampleAlloy n e))
        (clusterStart fun _ : Bool => sampleConfig) clusterRun :=
  ⟨by decide, cluster_verifications_extend sampleAlloy_collisionFree sampleAlloy_nonZero
    sampleAlloy_roundTrips sampleConfig.genesis (fun _ => sampleConfig) (fun _ => rfl) clusterRun
    clusterRun_honestReth⟩

end Allegro
