import Allegro.Node
import Mathlib.Data.UInt

/-!
# Seconds and milliseconds

A proposer asks for milliseconds past its parent's, and sends the seconds in them
to reth. Both closures then derive the milliseconds of a block from the seconds
in its header. So what is recorded is a whole second, and a block whose header
shares the second of its parent has the milliseconds of its parent too.

Results:
1. `exact_of_recordsOn`: a record that a step writes has the milliseconds of a
   whole second, and the seconds of the header it was read off.
2. `strict_iff_newSecond`: a record has larger milliseconds than its parent
   exactly when the block starts a new second.
3. `millis_increase_iff_new_second`: so for whole runs.
4. `same_second_same_millis`: an honest proposal within the second of its parent.
-/

namespace Allegro

open Run Node

section Definitions

variable (A : Alloy)

/-- The milliseconds are those of the seconds, without saturation. -/
def BlockInfo.Exact (i : BlockInfo) : Prop :=
  i.timestampMillis.toNat = i.timestamp.toNat * 1000

/-- The seconds are those of a header with the recorded hash. -/
def BlockInfo.OfHeader (i : BlockInfo) : Prop :=
  ∃ h, A.hashSlow h = i.hash ∧ A.timestamp h = i.timestamp

/-- The reth that answers during a step builds headers with the requested timestamp. -/
def KeepsTimestamps (_ : Node) (e : Node.Event (Reth A)) : Prop :=
  ∀ reth, e.env = some reth → reth.KeepsTimestamp

/-- What the step records on a recorded parent has larger milliseconds than the parent. -/
def StrictMillis (n : Node) (e : Node.Event (Reth A)) : Prop :=
  ∀ d i parent p, RecordsOn A n e d i parent → n.info parent = some p →
    p.timestampMillis < i.timestampMillis

/-- The block starts a new second: a proposal is made with a clock that has passed
the second of the parent, and a block under verification has a header past it. -/
def NewSecond (n : Node) : Node.Event (Reth A) → Prop
  | .built reth =>
    ∀ msg req finalized payload p, n.stage = .building msg req → n.anchor = some finalized →
      buildClosure A reth finalized req = .ok payload → n.info msg.parent.2 = some p →
      ∃ nowMillis, req = Actor.buildRequest n.blockInfo.value msg nowMillis ∧
        p.timestamp < nowMillis / 1000
  | .validated reth =>
    ∀ msg bytes ph block rest p, n.stage = .validating msg bytes ph →
      A.decode bytes = .ok (block, rest) → reth.newPayload block = .ok .valid →
      Actor.timestampsAgree (blockMeta A block.header) = true → n.info msg.parent.2 = some p →
      p.timestamp < A.timestamp block.header
  | _ => True

end Definitions

namespace TimestampLemmas

variable {A : Alloy} {n : Node} {e : Node.Event (Reth A)}

/-! ## Arithmetic -/

/-- The derived milliseconds agree with the seconds exactly when they do not saturate. -/
theorem agree_iff {s : UInt64} :
    saturatingMul s 1000 / 1000 = s ↔ s.toNat * 1000 < 2 ^ 64 := by
  have hlt := s.toNat_lt
  rw [← UInt64.toNat_inj, UInt64.toNat_div, saturatingMul_toNat]
  show min (s.toNat * 1000) (2 ^ 64 - 1) / 1000 = s.toNat ↔ _
  omega

theorem saturatingMul_of_fits {s : UInt64} (h : s.toNat * 1000 < 2 ^ 64) :
    (saturatingMul s 1000).toNat = s.toNat * 1000 := by
  rw [saturatingMul_toNat]
  show min (s.toNat * 1000) (2 ^ 64 - 1) = _
  omega

/-- Seconds taken from milliseconds go back without saturation. -/
theorem fits_of_div (t : UInt64) : (t / 1000).toNat * 1000 < 2 ^ 64 := by
  have hlt := t.toNat_lt
  rw [UInt64.toNat_div]
  show t.toNat / 1000 * 1000 < _
  omega

/-- For a header whose seconds fit, milliseconds compare as seconds do. -/
theorem millis_lt_iff {p : BlockInfo} {s : UInt64}
    (hp : p.timestampMillis = saturatingMul p.timestamp 1000) (hs : s.toNat * 1000 < 2 ^ 64) :
    p.timestampMillis < saturatingMul s 1000 ↔ p.timestamp < s := by
  rw [hp, UInt64.lt_iff_toNat_lt, UInt64.lt_iff_toNat_lt, saturatingMul_of_fits hs,
    saturatingMul_toNat]
  show min (p.timestamp.toNat * 1000) (2 ^ 64 - 1) < _ ↔ _
  omega

/-- The seconds of a request pass those of the parent exactly when the clock's do:
one millisecond past a whole second is still that second. -/
theorem request_seconds_lt_iff {p : BlockInfo} {nowMillis : UInt64}
    (hp : p.timestampMillis = saturatingMul p.timestamp 1000) :
    p.timestamp < max nowMillis (saturatingAdd p.timestampMillis 1) / 1000 ↔
      p.timestamp < nowMillis / 1000 := by
  have hlt := p.timestamp.toNat_lt
  have hnow := nowMillis.toNat_lt
  rw [hp, UInt64.lt_iff_toNat_lt, UInt64.lt_iff_toNat_lt, UInt64.toNat_div, UInt64.toNat_div,
    UInt64.toNat_max, saturatingAdd_toNat, saturatingMul_toNat]
  show _ < max _ (min (min (p.timestamp.toNat * 1000) (2 ^ 64 - 1) + 1) (2 ^ 64 - 1)) / 1000 ↔
    _ < nowMillis.toNat / 1000
  omega

/-! ## Records -/

theorem saturatingMul_of_exact {i : BlockInfo} (h : i.Exact) :
    i.timestampMillis = saturatingMul i.timestamp 1000 := by
  have hlt := i.timestampMillis.toNat_lt
  rw [← UInt64.toNat_inj, saturatingMul_of_fits]
  · exact h
  · rw [← h]
    exact hlt

/-- A built block carries the seconds of its request. -/
theorem buildClosure_timestamp {reth : Reth A} {finalized : Finalized} {req : BuildPayloadRequest}
    {payload : BuiltPayload} (hreth : reth.KeepsTimestamp)
    (h : buildClosure A reth finalized req = .ok payload) :
    ∃ block, payload = builtPayload A block ∧ A.timestamp block.header = req.timestamp := by
  obtain ⟨block, hjob, rfl⟩ := buildClosure_ok h
  exact ⟨block, rfl, hreth _ _ _ hjob⟩

/-- A record that a step writes: whole seconds, read off a header. -/
theorem exact_of_recordsOn (hreq : n.RequestCurrent) (hreth : KeepsTimestamps A n e) {d : Digest}
    {i : BlockInfo} {parent : Digest} (h : RecordsOn A n e d i parent) :
    i.Exact ∧ i.OfHeader A := by
  cases h with
  | proposed hstage _ hb =>
    obtain ⟨block, rfl, htime⟩ := buildClosure_timestamp (hreth _ rfl) hb
    obtain ⟨nowMillis, rfl⟩ := hreq _ _ hstage
    refine ⟨?_, block.header, rfl, htime⟩
    show (saturatingMul (A.timestamp block.header) 1000).toNat = _
    rw [htime]
    exact saturatingMul_of_fits (fits_of_div _)
  | verified _ hv hm =>
    obtain ⟨block, rest, _, _, rfl⟩ := validateClosure_valid.mp hv
    refine ⟨?_, block.header, rfl, rfl⟩
    exact saturatingMul_of_fits (agree_iff.mp (eq_of_beq hm))

theorem keepsTimestamps_of_forall {c : Config A} {es : List (Node.Event (Reth A))}
    (hreth : ∀ e ∈ es, ∀ reth, e.env = some reth → reth.KeepsTimestamp) :
    Along (prodStep A) (KeepsTimestamps A) (Node.start c) es :=
  along_of_forall (D := fun e : Node.Event (Reth A) =>
    ∀ reth, e.env = some reth → reth.KeepsTimestamp) hreth

/-! ## One step -/

/-- Every record has the milliseconds that both closures derive from seconds, and
the request the actor waits on is current. -/
structure WholeSeconds (n : Node) : Prop where
  records : ∀ d i, n.info d = some i → i.timestampMillis = saturatingMul i.timestamp 1000
  request : n.RequestCurrent

theorem wholeSeconds_start (c : Config A) : WholeSeconds (Node.start c) where
  records := by
    intro d i hi
    rw [(App.info_new hi).2]
    rfl
  request := App.requestCurrent_new _ _ _

theorem wholeSeconds_step (h : WholeSeconds n) (hreth : KeepsTimestamps A n e) :
    WholeSeconds (n.prodStep A e) where
  records := by
    intro d i hi
    rcases Node.info_step_cases hi with hold | hnew
    · exact h.records d i hold
    · obtain ⟨parent, hon⟩ := recordsOn_of_records hnew
      exact saturatingMul_of_exact (exact_of_recordsOn h.request hreth hon).1
  request := Node.requestCurrent_step e h.request

theorem strict_iff_newSecond (h : WholeSeconds n) (hreth : KeepsTimestamps A n e) :
    NewSecond A n e ↔ StrictMillis A n e := by
  constructor
  · intro hnew d i parent p hrec hp
    cases hrec with
    | proposed hstage hanchor hb =>
      obtain ⟨nowMillis, rfl, hlt⟩ := hnew _ _ _ _ p hstage hanchor hb hp
      obtain ⟨block, rfl, htime⟩ := buildClosure_timestamp (hreth _ rfl) hb
      rw [(Actor.buildRequest_known nowMillis hp).2.2.2] at htime
      show p.timestampMillis < saturatingMul (A.timestamp block.header) 1000
      rw [htime, millis_lt_iff (h.records _ p hp) (fits_of_div _)]
      exact (request_seconds_lt_iff (h.records _ p hp)).mpr hlt
    | verified hstage hv hm =>
      obtain ⟨block, rest, hdec, hvalid, rfl⟩ := validateClosure_valid.mp hv
      have hlt := hnew _ _ _ block rest p hstage hdec hvalid hm hp
      exact (millis_lt_iff (h.records _ p hp) (agree_iff.mp (eq_of_beq hm))).mpr hlt
  · intro hstrict
    cases e with
    | built reth =>
      intro msg req finalized payload p hstage hanchor hb hp
      obtain ⟨block, rfl, htime⟩ := buildClosure_timestamp (hreth _ rfl) hb
      obtain ⟨nowMillis, rfl⟩ := h.request msg req hstage
      rw [(Actor.buildRequest_known nowMillis hp).2.2.2] at htime
      have hlt : p.timestampMillis < saturatingMul (A.timestamp block.header) 1000 :=
        hstrict _ _ _ p (.proposed hstage hanchor hb) hp
      rw [htime, millis_lt_iff (h.records _ p hp) (fits_of_div _)] at hlt
      exact ⟨nowMillis, rfl, (request_seconds_lt_iff (h.records _ p hp)).mp hlt⟩
    | validated reth =>
      intro msg bytes ph block rest p hstage hdec hvalid hm hp
      have hv : validateClosure A reth ⟨bytes, ph⟩ = .ok (.valid (blockMeta A block.header)) :=
        validateClosure_valid.mpr ⟨block, rest, hdec, hvalid, rfl⟩
      have hlt := hstrict _ _ _ p (.verified hstage hv hm) hp
      exact (millis_lt_iff (h.records _ p hp) (agree_iff.mp (eq_of_beq hm))).mp hlt
    | _ => trivial

end TimestampLemmas

open TimestampLemmas

/-- In every run with the production closures, over a reth that builds headers
with the requested timestamp, whatever the clocks and the peers' blocks: every
record that is written for a recorded parent has larger milliseconds than the
parent, exactly when every such block starts a new second. -/
theorem millis_increase_iff_new_second {A : Alloy} (c : Config A)
    (es : List (Node.Event (Reth A)))
    (hreth : ∀ e ∈ es, ∀ reth, e.env = some reth → reth.KeepsTimestamp) :
    Along (prodStep A) (NewSecond A) (Node.start c) es ↔
      Along (prodStep A) (StrictMillis A) (Node.start c) es :=
  along_congr (fun _ _ hn he => wholeSeconds_step hn he)
    (fun _ _ hn he => strict_iff_newSecond hn he) (keepsTimestamps_of_forall hreth)
    (wholeSeconds_start c)

/-! ## Two runs -/

/-- Block `one` is proposed a second after genesis, and `two` verified on it. -/
def newSecondsRun : List (Node.Event (Reth sampleAlloy)) :=
  [.enqueue (.propose (samplePropose .EMPTY 1)), .recv 11000, .buildFcu, .built (sampleReth .one),
    .blockMessage (wireMessage SampleHeader.two.digest [3]),
    .enqueue (.verify (sampleVerify SampleHeader.one.digest SampleHeader.two.digest 2)), .recv 0,
    .validated (sampleReth .two)]

theorem newSecondsRun_keepsTimestamp :
    ∀ e ∈ newSecondsRun, ∀ reth, e.env = some reth → reth.KeepsTimestamp := by
  intro e he reth hr
  simp only [newSecondsRun, List.mem_cons, List.not_mem_nil, or_false] at he
  rcases he with rfl | rfl | rfl | rfl | rfl | rfl | rfl | rfl <;> cases hr
  · exact sampleReth_keepsTimestamp .one
  · exact sampleReth_keepsTimestamp .two

theorem chain_of_new_seconds_increases :
    Along (prodStep sampleAlloy) (StrictMillis sampleAlloy) (Node.start sampleConfig)
      newSecondsRun := by
  refine (millis_increase_iff_new_second sampleConfig newSecondsRun
    newSecondsRun_keepsTimestamp).mp ?_
  refine ⟨trivial, trivial, trivial, ?_, trivial, trivial, trivial, ?_, trivial⟩
  · intro msg req finalized payload p hstage _ _ hp
    cases hstage
    cases hp
    exact ⟨11000, rfl, by decide⟩
  · intro msg bytes ph block rest p hstage hdec _ _ hp
    cases hstage
    cases hdec
    cases hp
    decide

/-- The small chain with every block in the second of genesis. -/
def tickAlloy : Alloy := { sampleAlloy with timestamp := fun _ => 10 }

def tickConfig : Config tickAlloy where
  genesis := ⟨SampleHeader.genesis, rfl, sampleKey⟩
  validators := sampleValidators
  metrics := none
  senders := 1

/-- Reth builds block `one` when it is asked for a block on genesis in that second. -/
def tickReth : Reth tickAlloy where
  forkChoiceUpdated := fun _ fcs attrs =>
    .ok ⟨.valid, if fcs.headBlockHash = SampleHeader.genesis.hash ∧
        attrs.map PayloadAttributes.timestamp = some 10 then some 0 else none⟩
  resolveKind := fun _ => some (.ok ⟨SampleHeader.one, ()⟩)
  newPayload := fun _ => .ok .valid

theorem tickReth_keepsTimestamp : tickReth.KeepsTimestamp := by
  rintro fcs attrs block ⟨_, fcu, id, hf, hid, hres⟩
  cases hf
  cases hres
  split at hid
  · next hc => exact (Option.some.inj hc.2).symm
  · cases hid

/-- A proposal on genesis, half a second after genesis. -/
def tickRun : List (Node.Event (Reth tickAlloy)) :=
  [.enqueue (.propose (samplePropose .EMPTY 1)), .recv 10500, .buildFcu, .built tickReth]

/-- The proposer asks for 10500 milliseconds, and records the 10000 of genesis. -/
theorem same_second_same_millis :
    (∀ e ∈ tickRun, ∀ reth, e.env = some reth → reth.KeepsTimestamp) ∧
      (run (prodStep tickAlloy) (Node.start tickConfig) tickRun).info Digest.EMPTY =
        some ⟨0, SampleHeader.genesis.hash, 0, sampleKey, 10, 10000⟩ ∧
      (run (prodStep tickAlloy) (Node.start tickConfig) tickRun).info SampleHeader.one.digest =
        some ⟨1, SampleHeader.one.hash, 1, sampleKey, 10, 10000⟩ ∧
      ¬ Along (prodStep tickAlloy) (StrictMillis tickAlloy) (Node.start tickConfig) tickRun := by
  refine ⟨?_, by decide, by decide, ?_⟩
  · intro e he reth hr
    simp only [tickRun, List.mem_cons, List.not_mem_nil, or_false] at he
    rcases he with rfl | rfl | rfl | rfl <;> cases hr
    exact tickReth_keepsTimestamp
  · intro h
    have hstep : StrictMillis tickAlloy
        (run (prodStep tickAlloy) (Node.start tickConfig) (tickRun.take 3)) (.built tickReth) :=
      Along.at h
    have hb : buildClosure tickAlloy tickReth (SampleHeader.genesis.hash, 0)
        (Actor.buildRequest (Node.start tickConfig).blockInfo.value (samplePropose .EMPTY 1) 10500) =
          .ok (builtPayload tickAlloy ⟨SampleHeader.one, ()⟩) := rfl
    have hlt := hstep _ _ _ ⟨0, SampleHeader.genesis.hash, 0, sampleKey, 10, 10000⟩
      (.proposed rfl (by exact rfl) hb) (by decide)
    revert hlt
    decide

end Allegro
