import Allegro.Agreement
import Allegro.Timestamps

/-!
# Chain time against the clocks

A proposal asks for one millisecond past its parent if its clock is behind. That
millisecond does not add up: only the seconds of a request reach the header, and
the parent's milliseconds are a whole second, so such a block is put into the
second of its parent. A block is ahead of its parent only by what the clock of
its proposer shows. In a network of honest nodes the recorded milliseconds stay
within genesis and the clock readings that proposals have used.

Results:
1. `request_millis_le`: one request keeps within a bound on its clock and parent.
2. `timely_step`, `timelyMessage_sends`: a node keeps within the bound on messages
   that do, and sends only such messages.
3. `recorded_millis_within_clocks`: every record of every run of the network.
-/

namespace Allegro

open Run Node TimestampLemmas

section Definitions

variable {A : Alloy} {ι : Type} [DecidableEq ι]

/-- The clock reading that a step uses for a proposal. -/
def proposeClock (n : Node) : Node.Event (Reth A) → Option UInt64
  | .recv nowMillis =>
    match n.stage, n.receiver with
    | .idle, .propose _ :: _ => some nowMillis
    | _, _ => none
  | _ => none

/-- The clock readings that the proposals of a run use, on any node. -/
def clockReadings (net : Net ι Node Bytes) : List (ι × Node.Event (Reth A)) → List UInt64
  | [] => []
  | ie :: es =>
    (proposeClock (net.party ie.1) ie.2).toList ++ clockReadings ((machine A).netStep net ie) es

/-- The latest of genesis and the clock readings that the proposals of a run use. -/
def latestClock (genesisMillis : UInt64) (net : Net ι Node Bytes)
    (es : List (ι × Node.Event (Reth A))) : UInt64 :=
  (clockReadings net es).foldl max genesisMillis

variable (A) in
/-- The bytes are a block whose milliseconds are within `b`. -/
def TimelyBytes (b : UInt64) (bytes : Bytes) : Prop :=
  ∃ block : A.Block, bytes = A.encode block ∧
    saturatingMul (A.timestamp block.header) 1000 ≤ b

variable (A) in
/-- What the receiver reads from the message is a block within `b`. -/
def TimelyMessage (b : UInt64) (data : Bytes) : Prop :=
  ∀ d bytes, parseBlockMessage data = some (d, bytes) → TimelyBytes A b bytes

variable (A) in
/-- Everything a node records, holds and asks for is within `b`. -/
structure Timely (b : UInt64) (n : Node) : Prop where
  records : ∀ d i, n.info d = some i → i.Exact ∧ i.timestampMillis ≤ b
  current : n.RequestCurrent
  request : ∀ msg req, n.stage = .building msg req → saturatingMul req.timestamp 1000 ≤ b
  pending : ∀ d bytes, n.pendingBlocks.value.lookup d = some bytes → TimelyBytes A b bytes
  received : ∀ d bytes, n.receivedBlocks.value.lookup d = some bytes → TimelyBytes A b bytes
  validating : ∀ msg bytes ph, n.stage = .validating msg bytes ph → TimelyBytes A b bytes

end Definitions

namespace ClockBoundLemmas

variable {A : Alloy} {n : Node} {e : Node.Event (Reth A)} {b b' : UInt64}

/-! ## One request -/

/-- One millisecond past a whole second is cut off again. -/
theorem floor_le {parentMillis nowMillis : UInt64} (hwhole : parentMillis.toNat % 1000 = 0)
    (hparent : parentMillis ≤ b) (hnow : nowMillis ≤ b) :
    saturatingMul (max nowMillis (saturatingAdd parentMillis 1) / 1000) 1000 ≤ b := by
  have hlt := parentMillis.toNat_lt
  rw [UInt64.le_iff_toNat_le] at hparent hnow ⊢
  rw [saturatingMul_of_fits (fits_of_div _), UInt64.toNat_div, UInt64.toNat_max,
    saturatingAdd_toNat]
  show max _ (min (parentMillis.toNat + 1) (2 ^ 64 - 1)) / 1000 * 1000 ≤ _
  omega

theorem request_millis_le {map : BlockInfoMap} {msg : Propose} {nowMillis : UInt64}
    (hnow : nowMillis ≤ b)
    (hmap : ∀ p, map.lookup msg.parent.2 = some p → p.Exact ∧ p.timestampMillis ≤ b) :
    saturatingMul (Actor.buildRequest map msg nowMillis).timestamp 1000 ≤ b := by
  cases hp : map.lookup msg.parent.2 with
  | none =>
    -- an unknown parent stands at the epoch
    have hparent : Actor.parentOf map msg.parent.2 = (0, B256.ZERO, 0) := by
      rw [Actor.parentOf, hp]
      rfl
    simp only [Actor.buildRequest, hparent]
    exact floor_le rfl (UInt64.le_iff_toNat_le.mpr (Nat.zero_le _)) hnow
  | some p =>
    obtain ⟨hexact, hle⟩ := hmap p hp
    rw [(Actor.buildRequest_known nowMillis hp).2.2.2]
    refine floor_le ?_ hle hnow
    rw [hexact]
    exact Nat.mul_mod_left _ _

/-! ## One node -/

theorem timelyBytes_mono {bytes : Bytes} (hb : b ≤ b') (h : TimelyBytes A b bytes) :
    TimelyBytes A b' bytes := by
  obtain ⟨block, rfl, hle⟩ := h
  exact ⟨block, rfl, UInt64.le_trans hle hb⟩

theorem timely_mono (hb : b ≤ b') (h : Timely A b n) : Timely A b' n where
  records := fun d i hi => ⟨(h.records d i hi).1, UInt64.le_trans (h.records d i hi).2 hb⟩
  current := h.current
  request := fun msg req hs => UInt64.le_trans (h.request msg req hs) hb
  pending := fun d bytes hl => timelyBytes_mono hb (h.pending d bytes hl)
  received := fun d bytes hl => timelyBytes_mono hb (h.received d bytes hl)
  validating := fun msg bytes ph hs => timelyBytes_mono hb (h.validating msg bytes ph hs)

theorem timely_start (c : Config A) (hfits : (A.timestamp c.genesis.header).toNat * 1000 < 2 ^ 64) :
    Timely A c.genesis.info.timestampMillis (Node.start c) where
  records := by
    intro d i hi
    rw [(App.info_new hi).2]
    exact ⟨saturatingMul_of_fits hfits, UInt64.le_refl _⟩
  current := App.requestCurrent_new _ _ _
  request := fun _ _ h => (nomatch h)
  pending := fun _ _ h => (nomatch h)
  received := fun _ _ h => (nomatch h)
  validating := fun _ _ _ h => (nomatch h)

/-- What a step records is within the bound: a built block has the seconds of its
request, and a verified one is a block that some node has sent. -/
theorem millis_le_of_recordsOn (hr : A.RoundTrips) (h : Timely A b n)
    (hreth : KeepsTimestamps A n e) {d : Digest} {i : BlockInfo} {parent : Digest}
    (hrec : RecordsOn A n e d i parent) : i.timestampMillis ≤ b := by
  cases hrec with
  | proposed hstage _ hb =>
    obtain ⟨block, rfl, htime⟩ := buildClosure_timestamp (hreth _ rfl) hb
    show saturatingMul (A.timestamp block.header) 1000 ≤ b
    rw [htime]
    exact h.request _ _ hstage
  | verified hstage hv _ =>
    obtain ⟨block, rest, hdec, _, rfl⟩ := validateClosure_valid.mp hv
    obtain ⟨sent, rfl, hle⟩ := h.validating _ _ _ hstage
    cases hdec.symm.trans (hr sent)
    exact hle

theorem timely_step (hr : A.RoundTrips) (h : Timely A b n) (hreth : KeepsTimestamps A n e)
    (hclock : ∀ nowMillis, proposeClock n e = some nowMillis → nowMillis ≤ b)
    (hmsg : ∀ data, (machine A).receives e = some data → TimelyMessage A b data) :
    Timely A b (n.prodStep A e) where
  records := by
    intro d i hi
    rcases Node.info_step_cases hi with hold | hnew
    · exact h.records d i hold
    · obtain ⟨parent, hrec⟩ := recordsOn_of_records hnew
      exact ⟨(exact_of_recordsOn h.current hreth hrec).1,
        millis_le_of_recordsOn hr h hreth hrec⟩
  current := Node.requestCurrent_step e h.current
  request := by
    intro msg req hs
    rcases building_step_cases hs with hold | ⟨rest, nowMillis, hidle, hrecv, rfl, rfl⟩
    · exact h.request msg req hold
    · refine request_millis_le (hclock nowMillis ?_) fun p hp => h.records _ p hp
      simp only [proposeClock, hidle, hrecv]
  pending := by
    intro d bytes hl
    rcases pending_step_cases hl with hold | ⟨env, msg, req, finalized, payload, rfl, hstage, _, hb,
      _, rfl⟩
    · exact h.pending d bytes hold
    · obtain ⟨block, rfl, htime⟩ := buildClosure_timestamp (hreth env rfl) hb
      refine ⟨block, rfl, ?_⟩
      rw [htime]
      exact h.request msg req hstage
  received := by
    intro d bytes hl
    rcases received_step_cases hl with hold | ⟨data, rfl, hp⟩
    · exact h.received d bytes hold
    · exact hmsg data rfl d bytes hp
  validating := by
    intro msg bytes ph hs
    rcases validating_step_cases hs with hold | hold | hold
    · exact h.validating msg bytes ph hold
    · exact h.pending _ bytes hold
    · exact h.received _ bytes hold

theorem timelyMessage_sends (h : Timely A b n) {data : Bytes}
    (hmem : data ∈ (machine A).sends n e) : TimelyMessage A b data := by
  obtain ⟨digest, bytes, hlookup, rfl⟩ := mem_machine_sends hmem
  intro d bytes' hp
  rw [parse_wireMessage] at hp
  cases hp
  exact h.pending digest bytes hlookup

/-! ## The bound -/

section Bound

variable {ι : Type} [DecidableEq ι]

theorem clockReadings_concat (net : Net ι Node Bytes) (es : List (ι × Node.Event (Reth A)))
    (ie : ι × Node.Event (Reth A)) :
    clockReadings net (es ++ [ie]) = clockReadings net es ++
      (proposeClock ((run (machine A).netStep net es).party ie.1) ie.2).toList := by
  induction es generalizing net with
  | nil => exact List.append_nil _
  | cons first es ih =>
    rw [List.cons_append, clockReadings, clockReadings, ih, List.append_assoc]
    rfl

/-- A reading raises the bound to at least itself, and never lowers it. -/
theorem latestClock_concat (g : UInt64) (net : Net ι Node Bytes)
    (es : List (ι × Node.Event (Reth A))) (ie : ι × Node.Event (Reth A)) :
    latestClock g net es ≤ latestClock g net (es ++ [ie]) ∧
      ∀ nowMillis,
        proposeClock ((run (machine A).netStep net es).party ie.1) ie.2 = some nowMillis →
          nowMillis ≤ latestClock g net (es ++ [ie]) := by
  rw [latestClock, latestClock, clockReadings_concat, List.foldl_append]
  cases proposeClock ((run (machine A).netStep net es).party ie.1) ie.2 with
  | none => exact ⟨UInt64.le_refl _, fun _ h => (nomatch h)⟩
  | some reading =>
    show _ ≤ max _ reading ∧ ∀ nowMillis, some reading = some nowMillis → nowMillis ≤ max _ reading
    simp only [UInt64.le_iff_toNat_le, UInt64.toNat_max]
    refine ⟨Nat.le_max_left _ _, fun nowMillis h => ?_⟩
    cases h
    exact Nat.le_max_right _ _

end Bound

end ClockBoundLemmas

open ClockBoundLemmas

section Network

variable {A : Alloy} {ι : Type} [DecidableEq ι]

/-- At every point of a run, the nodes and the messages between them are within
the latest clock used so far. -/
theorem timely_run (hr : A.RoundTrips) (cfg : ι → Config A) (g : Genesis A)
    (hg : ∀ i, (cfg i).genesis = g) (hfits : (A.timestamp g.header).toNat * 1000 < 2 ^ 64)
    (es : List (ι × Node.Event (Reth A)))
    (hreth : ∀ ie ∈ es, ∀ reth, ie.2.env = some reth → reth.KeepsTimestamp) :
    Machine.Inv (Timely A (latestClock g.info.timestampMillis (netStart cfg) es))
      (TimelyMessage A (latestClock g.info.timestampMillis (netStart cfg) es))
      (run (machine A).netStep (netStart cfg) es) := by
  refine trace_invariant (machine A).netStep (netStart cfg)
    (P := fun es net => (∀ ie ∈ es, ∀ reth, ie.2.env = some reth → reth.KeepsTimestamp) →
      Machine.Inv (Timely A (latestClock g.info.timestampMillis (netStart cfg) es))
        (TimelyMessage A (latestClock g.info.timestampMillis (netStart cfg) es)) net) ?_ ?_ es hreth
  · refine fun _ => ⟨fun i => ?_, fun _ h => (nomatch h)⟩
    have hstart := timely_start (cfg i) (by rw [hg i]; exact hfits)
    rw [hg i] at hstart
    exact hstart
  · intro es ie ih hreth
    obtain ⟨hgrows, hclock⟩ := latestClock_concat g.info.timestampMillis (netStart cfg) es ie
    have hold := ih fun ie' hie' => hreth ie' (List.mem_append_left _ hie')
    -- the bound is first raised for the step, and the step then keeps it
    refine Machine.Inv.netStep
      (C := fun n e => KeepsTimestamps A n e ∧ ∀ nowMillis, proposeClock n e = some nowMillis →
        nowMillis ≤ latestClock g.info.timestampMillis (netStart cfg) (es ++ [ie]))
      (fun n e hn hC hmsg => timely_step hr hn hC.1 hC.2 hmsg)
      (fun n e hn _ data hmem => timelyMessage_sends hn hmem)
      ⟨fun i => timely_mono hgrows (hold.party i), fun data hdata d bytes hp =>
        timelyBytes_mono hgrows (hold.wire data hdata d bytes hp)⟩ ?_
    exact ⟨hreth ie (List.mem_append_right _ (List.mem_singleton_self ie)), hclock⟩

/-- In a network of any number of production nodes on one genesis whose
milliseconds fit, whatever their clocks show at each proposal, the order of their
steps and the delivery of their messages: every recorded `timestamp_millis` is at
most the latest of genesis and the clock readings that proposals have used so
far. -/
theorem recorded_millis_within_clocks (hr : A.RoundTrips) (cfg : ι → Config A) (g : Genesis A)
    (hg : ∀ i, (cfg i).genesis = g) (hfits : (A.timestamp g.header).toNat * 1000 < 2 ^ 64)
    (es : List (ι × Node.Event (Reth A)))
    (hreth : ∀ ie ∈ es, ∀ reth, ie.2.env = some reth → reth.KeepsTimestamp)
    (i : ι) (d : Digest) (x : BlockInfo)
    (hx : ((run (machine A).netStep (netStart cfg) es).party i).info d = some x) :
    x.timestampMillis ≤ latestClock g.info.timestampMillis (netStart cfg) es :=
  (((timely_run hr cfg g hg hfits es hreth).party i).records d x hx).2

end Network

/-- The verifier's record of a block that was proposed with a clock at 11000. -/
theorem relayed_millis_within_clock :
    ((run (machine sampleAlloy).netStep (netStart fun _ => sampleConfig) relayRun).party
        false).info SampleHeader.one.digest =
        some ⟨1, SampleHeader.one.hash, 1, sampleKey, 11, 11000⟩ ∧
      latestClock 10000 (netStart fun _ => sampleConfig) relayRun = 11000 ∧
      (11000 : UInt64) ≤ latestClock 10000 (netStart fun _ => sampleConfig) relayRun := by
  have hx : ((run (machine sampleAlloy).netStep (netStart fun _ => sampleConfig) relayRun).party
      false).info SampleHeader.one.digest =
        some ⟨1, SampleHeader.one.hash, 1, sampleKey, 11, 11000⟩ := by decide
  exact ⟨hx, by decide, recorded_millis_within_clocks sampleAlloy_roundTrips
    (fun _ => sampleConfig) sampleConfig.genesis (fun _ => rfl) (by decide) relayRun
    relayRun_keepsTimestamp false SampleHeader.one.digest _ hx⟩

end Allegro
