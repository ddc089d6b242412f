import Allegro.Engine

/-!
# What one step of the engine side can do

Every invariant of a run is derived from the inversion lemmas of this module,
one for each part of the state:

* `App.info_step_cases`: a record of `block_info` was there before the step, or
  the step wrote it (`App.Records`);
* `App.pending_step_cases`, `App.received_step_cases`: the same for the bytes in
  `pending_blocks` and `received_blocks`;
* `App.stage_step_cases`: how a handler comes to wait for the builder;
* `App.answers_step`: which response a step sends (`App.Responds`).

No step takes an entry of a store away (`App.stores_step_grow`) and no step poisons a lock
(`App.healthy_step`).
-/

namespace Allegro

/-! ## The handlers -/

namespace Actor

/-- The stores and the validator set agree. Only the mailbox, the proposal
count and the metrics may differ. -/
structure SameStores (a b : Actor) : Prop where
  validators : a.validators = b.validators
  proposals : a.proposals = b.proposals
  pendingBlocks : a.pendingBlocks = b.pendingBlocks
  receivedBlocks : a.receivedBlocks = b.receivedBlocks
  blockInfo : a.blockInfo = b.blockInfo

theorem SameStores.refl (a : Actor) : SameStores a a := ⟨rfl, rfl, rfl, rfl, rfl⟩

theorem count_sameStores (a : Actor) (inc : ConsensusMetrics → ConsensusMetrics) :
    SameStores (a.count inc) a := ⟨rfl, rfl, rfl, rfl, rfl⟩

theorem proposeRequest_sameStores (a : Actor) (msg : Propose) (nowMillis : UInt64) :
    SameStores (a.proposeRequest msg nowMillis).1 a := ⟨rfl, rfl, rfl, rfl, rfl⟩

/-- The actor after the lookup of a parent: one more proposal is counted. -/
def counted (a : Actor) : Actor :=
  { a with proposalCount := a.proposalCount + 1 }.count .incBlocksProposed

theorem proposeRequest_eq {a : Actor} {msg : Propose} {nowMillis : UInt64}
    (hl : a.blockInfo.poisoned = false) :
    a.proposeRequest msg nowMillis =
      (counted a, some (buildRequest a.blockInfo.value msg nowMillis)) := by
  have hread : (counted a).blockInfo.read = some a.blockInfo.value :=
    Lock.read_eq_some.mpr ⟨hl, rfl⟩
  show (counted a, (counted a).blockInfo.read.map _) = _
  rw [hread]
  rfl

theorem proposeRequest_poisoned {a : Actor} {msg : Propose} {nowMillis : UInt64}
    (hl : a.blockInfo.poisoned = true) :
    a.proposeRequest msg nowMillis = (counted a, none) := by
  have hread : (counted a).blockInfo.read = none := if_pos hl
  show (counted a, (counted a).blockInfo.read.map _) = _
  rw [hread]
  rfl

/-- `handle_propose` with records that can be read is the builder's answer to the
request, recorded. With a poisoned lock it only counts. -/
theorem handlePropose_eq (a : Actor) (msg : Propose) (nowMillis : UInt64)
    (build : BuildPayloadRequest → Except String BuiltPayload) :
    a.handlePropose msg nowMillis build =
      if a.blockInfo.poisoned then (counted a, none)
      else (counted a).proposeRecord msg (buildRequest a.blockInfo.value msg nowMillis)
        (build (buildRequest a.blockInfo.value msg nowMillis)) := by
  cases hl : a.blockInfo.poisoned with
  | true => rw [handlePropose, proposeRequest_poisoned hl, if_pos rfl]
  | false => rw [handlePropose, proposeRequest_eq hl, if_neg Bool.false_ne_true]

/-- The request on a recorded parent: its hash and number, and milliseconds past
its milliseconds. -/
theorem buildRequest_known {map : BlockInfoMap} {msg : Propose} {p : BlockInfo}
    (nowMillis : UInt64) (h : map.lookup msg.parent.2 = some p) :
    (buildRequest map msg nowMillis).parentHash = p.hash ∧
      (buildRequest map msg nowMillis).parentNumber = p.number ∧
      (buildRequest map msg nowMillis).timestampMillis =
        max nowMillis (saturatingAdd p.timestampMillis 1) ∧
      (buildRequest map msg nowMillis).timestamp =
        max nowMillis (saturatingAdd p.timestampMillis 1) / 1000 := by
  have hparent : parentOf map msg.parent.2 = (p.number, p.hash, p.timestampMillis) := by
    rw [parentOf, h]
    rfl
  simp only [buildRequest, hparent, and_self]

theorem verifyLookup_sameStores (a : Actor) (msg : Verify) :
    SameStores (a.verifyLookup msg).1 a := by
  unfold verifyLookup
  split
  · exact count_sameStores a _
  · split
    · exact .refl a
    · split
      · exact count_sameStores a _
      · exact .refl a

/-- The lookup goes on to validate only the bytes of a known proposer's
payload, and hands on the parent's digest. -/
theorem verifyLookup_eq_validate {a a' : Actor} {msg : Verify} {bytes : Bytes} {ph : B256}
    (h : a.verifyLookup msg = (a', .validate bytes ph)) :
    (a.validators.lookup msg.proposer).isSome ∧ a.pendingBlocks.poisoned = false ∧
      a.blockBytes a.pendingBlocks.value msg.payload = some bytes ∧
      ph = msg.parent.2.get ∧ a' = a := by
  unfold verifyLookup at h
  split at h
  · cases h
  · next hv =>
    split at h
    · cases h
    · next pending hp =>
      obtain ⟨hpois, rfl⟩ := Lock.read_eq_some.mp hp
      split at h
      · cases h
      · next bytes' hb =>
        cases h
        refine ⟨?_, hpois, hb, rfl, rfl⟩
        simpa [Option.isSome_iff_ne_none] using hv

/-- The lookup never answers `true` by itself. -/
theorem verifyLookup_eq_answer {a a' : Actor} {msg : Verify} {valid : Bool}
    (h : a.verifyLookup msg = (a', .answer valid)) : valid = false := by
  unfold verifyLookup at h
  split at h
  · cases h
    rfl
  · split at h
    · cases h
      rfl
    · split at h
      · cases h
        rfl
      · cases h

/-- The bytes of a payload come from one of the two stores. -/
theorem blockBytes_cases {a : Actor} {payload : Digest} {bytes : Bytes}
    (h : a.blockBytes a.pendingBlocks.value payload = some bytes) :
    a.pendingBlocks.value.lookup payload = some bytes ∨
      a.receivedBlocks.value.lookup payload = some bytes := by
  unfold blockBytes at h
  rcases Option.or_eq_some_iff.mp h with hp | ⟨_, hr⟩
  · exact .inl hp
  · obtain ⟨map, hmap, hl⟩ := Option.bind_eq_some_iff.mp hr
    obtain ⟨_, rfl⟩ := Lock.read_eq_some.mp hmap
    exact .inr hl

theorem blockBytes_eq_none {a : Actor} (hl : a.Healthy) (d : Digest) :
    a.blockBytes a.pendingBlocks.value d = none ↔
      a.pendingBlocks.value.lookup d = none ∧ a.receivedBlocks.value.lookup d = none := by
  have hread : a.receivedBlocks.read = some a.receivedBlocks.value :=
    Lock.read_eq_some.mpr ⟨hl.receivedBlocks, rfl⟩
  simp only [blockBytes, hread, Option.or_eq_none_iff, Option.bind_some]

/-- The lookup of a payload of a known proposer, by what the stores hold. -/
theorem verifyLookup_known {a : Actor} {msg : Verify} (hl : a.pendingBlocks.poisoned = false)
    (hv : (a.validators.lookup msg.proposer).isSome) :
    (a.blockBytes a.pendingBlocks.value msg.payload = none →
      (a.verifyLookup msg).2 = .answer false) ∧
    ∀ bytes, a.blockBytes a.pendingBlocks.value msg.payload = some bytes →
      a.verifyLookup msg = (a, .validate bytes msg.parent.2.get) := by
  have hread : a.pendingBlocks.read = some a.pendingBlocks.value :=
    Lock.read_eq_some.mpr ⟨hl, rfl⟩
  have hn : ¬ (a.validators.lookup msg.proposer).isNone = true := by
    rw [Option.isNone_iff_eq_none]
    exact Option.isSome_iff_ne_none.mp hv
  refine ⟨fun hb => ?_, fun bytes hb => ?_⟩
  · simp only [verifyLookup, if_neg hn, hread, hb]
  · simp only [verifyLookup, if_neg hn, hread, hb]

/-- The builder's answer makes `handle_verify` answer `true`. -/
def Accepts (result : Except String ValidationResult) : Prop :=
  ∃ m, result = .ok (.valid m) ∧ timestampsAgree m = true

theorem verifyRecord_accepts (a : Actor) (msg : Verify) {m : BlockMeta}
    (h : timestampsAgree m = true) :
    a.verifyRecord msg (.ok (.valid m)) =
      ({ a with
          blockInfo := a.blockInfo.insert msg.payload (verifiedInfo msg m)
        }.count .incBlocksVerified, true) :=
  if_pos h

theorem verifyRecord_disagrees (a : Actor) (msg : Verify) {m : BlockMeta}
    (h : ¬ timestampsAgree m = true) :
    a.verifyRecord msg (.ok (.valid m)) = (a.count .incFailedValidations, false) :=
  if_neg h

/-- An answer that is not accepted leaves the stores as they are. -/
theorem verifyRecord_refuses (a : Actor) (msg : Verify) {result : Except String ValidationResult}
    (h : ¬ Accepts result) :
    SameStores (a.verifyRecord msg result).1 a ∧ (a.verifyRecord msg result).2 = false := by
  match result with
  | .ok (.valid m) =>
    have hm : ¬ timestampsAgree m = true := fun hm => h ⟨m, rfl, hm⟩
    rw [verifyRecord_disagrees a msg hm]
    exact ⟨count_sameStores a _, rfl⟩
  | .ok (.invalid _) => exact ⟨count_sameStores a _, rfl⟩
  | .error _ => exact ⟨⟨rfl, rfl, rfl, rfl, rfl⟩, rfl⟩

/-- `handle_verify` answers `true` exactly for a known proposer's payload whose
bytes the node can read and the builder accepts. -/
theorem handleVerify_true_iff {a : Actor} {msg : Verify}
    {validate : Bytes → B256 → Except String ValidationResult} :
    (a.handleVerify msg validate).2 = true ↔
      (a.validators.lookup msg.proposer).isSome ∧ a.pendingBlocks.poisoned = false ∧
        ∃ bytes, a.blockBytes a.pendingBlocks.value msg.payload = some bytes ∧
          Accepts (validate bytes msg.parent.2.get) := by
  unfold handleVerify
  split
  · next a' valid h =>
    cases verifyLookup_eq_answer h
    refine ⟨fun hf => (nomatch hf), fun ⟨hv, hp, bytes, hb, _⟩ => ?_⟩
    rw [(verifyLookup_known hp hv).2 bytes hb] at h
    cases h
  · next a' bytes ph h =>
    obtain ⟨hv, hp, hb, rfl, rfl⟩ := verifyLookup_eq_validate h
    constructor
    · intro ht
      refine ⟨hv, hp, bytes, hb, ?_⟩
      by_contra hn
      rw [(verifyRecord_refuses a' msg hn).2] at ht
      cases ht
    · rintro ⟨_, _, bytes', hb', m, hm, hagree⟩
      cases hb.symm.trans hb'
      rw [hm, verifyRecord_accepts a' msg hagree]

/-- The block that was accepted is recorded. -/
theorem handleVerify_accepts {a : Actor} {msg : Verify}
    {validate : Bytes → B256 → Except String ValidationResult} {bytes : Bytes} {m : BlockMeta}
    (hv : (a.validators.lookup msg.proposer).isSome) (hp : a.pendingBlocks.poisoned = false)
    (hb : a.blockBytes a.pendingBlocks.value msg.payload = some bytes)
    (hm : validate bytes msg.parent.2.get = .ok (.valid m)) (hagree : timestampsAgree m = true) :
    a.handleVerify msg validate =
      ({ a with
          blockInfo := a.blockInfo.insert msg.payload (verifiedInfo msg m)
        }.count .incBlocksVerified, true) := by
  rw [handleVerify, (verifyLookup_known hp hv).2 bytes hb]
  show a.verifyRecord msg (validate bytes msg.parent.2.get) = _
  rw [hm, verifyRecord_accepts a msg hagree]

theorem handleVerify_eq_true {a : Actor} {msg : Verify}
    {validate : Bytes → B256 → Except String ValidationResult} (hl : a.Healthy) :
    (a.handleVerify msg validate).2 = true ↔
      (a.validators.lookup msg.proposer).isSome ∧
        ∃ bytes, a.blockBytes a.pendingBlocks.value msg.payload = some bytes ∧
          Accepts (validate bytes msg.parent.2.get) := by
  rw [handleVerify_true_iff]
  exact and_congr_right fun _ => and_iff_right hl.pendingBlocks

theorem verifyLookup_receiver (a : Actor) (msg : Verify) :
    (a.verifyLookup msg).1.receiver = a.receiver := by
  unfold verifyLookup
  split
  · rfl
  · split
    · rfl
    · split
      · rfl
      · rfl

theorem verifyRecord_receiver (a : Actor) (msg : Verify)
    (result : Except String ValidationResult) :
    (a.verifyRecord msg result).1.receiver = a.receiver := by
  match result with
  | .ok (.valid m) =>
    rw [verifyRecord]
    split
    · rfl
    · rfl
  | .ok (.invalid _) => rfl
  | .error _ => rfl

/-- The relay looks the bytes up and sends them behind their digest. -/
theorem broadcast_pending {a : Actor} {d : Digest} {bytes : Bytes}
    (hl : a.pendingBlocks.poisoned = false) (hp : a.pendingBlocks.value.lookup d = some bytes)
    {plan : Plan} {transport : Transport} (hc : transport.check plan.recipients = true) :
    (BlockRelay.broadcast a d plan transport).map Prod.snd =
      some (some ⟨plan.recipients, wireMessage d bytes⟩) := by
  unfold BlockRelay.broadcast
  rw [Lock.read_eq_some.mpr ⟨hl, rfl⟩]
  simp only [Option.map_some, hp, hc, if_true]

/-- A block that is not in its store it does not send. -/
theorem broadcast_absent {a : Actor} {d : Digest} (hl : a.pendingBlocks.poisoned = false)
    (hp : a.pendingBlocks.value.lookup d = none) (plan : Plan) (transport : Transport) :
    (BlockRelay.broadcast a d plan transport).map Prod.snd = some none := by
  unfold BlockRelay.broadcast
  rw [Lock.read_eq_some.mpr ⟨hl, rfl⟩]
  simp only [Option.map_some, hp]

/-- A block message changes `received_blocks` only. -/
theorem receiveBlock_frame (a : Actor) (data : Bytes) :
    (receiveBlock a data).receiver = a.receiver ∧
      (receiveBlock a data).validators = a.validators ∧
      (receiveBlock a data).proposals = a.proposals ∧
      (receiveBlock a data).pendingBlocks = a.pendingBlocks ∧
      (receiveBlock a data).blockInfo = a.blockInfo ∧
      (receiveBlock a data).receivedBlocks.poisoned = a.receivedBlocks.poisoned := by
  unfold receiveBlock
  split
  · exact ⟨rfl, rfl, rfl, rfl, rfl, rfl⟩
  · split
    · exact ⟨rfl, rfl, rfl, rfl, rfl, rfl⟩
    · exact ⟨rfl, rfl, rfl, rfl, rfl, Lock.insert_poisoned _ _ _⟩

end Actor

/-! ## The steps -/

/-- The message that a handler works on. -/
def Stage.message : Stage → List Message
  | .idle => []
  | .building msg _ => [.propose msg]
  | .validating msg _ _ => [.verify msg]

/-- The message is for the block of `d`: the engine asked to verify `d`, or it
asked for a proposal and got `d`. -/
def Message.Names (answers : List Answer) (d : Digest) : Message → Prop
  | .propose msg => .proposed msg (some d) ∈ answers
  | .verify msg => msg.payload = d
  | .broadcast _ => False

namespace App

open Actor

/-- The step `e` writes the record `i` under `d`. -/
inductive Records (s : App) : Event → Digest → BlockInfo → Prop
  | proposed {msg : Propose} {req : BuildPayloadRequest} {payload : BuiltPayload} :
      s.stage = .building msg req →
      Records s (.built (.ok payload)) ⟨payload.blockHash⟩ (proposedInfo msg req payload)
  | verified {msg : Verify} {bytes : Bytes} {ph : B256} {m : BlockMeta} :
      s.stage = .validating msg bytes ph → timestampsAgree m = true →
      Records s (.validated (.ok (.valid m))) msg.payload (verifiedInfo msg m)

/-- The step `e` sends the response `answer`. -/
inductive Responds (s : App) : Event → Answer → Prop
  | dropped {msg : Propose} {rest : List Message} {nowMillis : UInt64} :
      s.stage = .idle → s.receiver = .propose msg :: rest → s.blockInfo.poisoned = true →
      Responds s (.recv nowMillis) (.proposed msg none)
  | rejected {msg : Verify} {rest : List Message} {nowMillis : UInt64} {a : Actor} :
      s.stage = .idle → s.receiver = .verify msg :: rest →
      { s.toActor with receiver := rest }.verifyLookup msg = (a, .answer false) →
      Responds s (.recv nowMillis) (.verified msg false)
  | failed {msg : Propose} {req : BuildPayloadRequest} {reason : String} :
      s.stage = .building msg req →
      Responds s (.built (.error reason)) (.proposed msg none)
  | proposed {msg : Propose} {req : BuildPayloadRequest} {payload : BuiltPayload} :
      s.stage = .building msg req →
      Responds s (.built (.ok payload)) (.proposed msg (some ⟨payload.blockHash⟩))
  | refused {msg : Verify} {bytes : Bytes} {ph : B256}
      {result : Except String ValidationResult} :
      s.stage = .validating msg bytes ph → ¬ Accepts result →
      Responds s (.validated result) (.verified msg false)
  | accepted {msg : Verify} {bytes : Bytes} {ph : B256} {m : BlockMeta} :
      s.stage = .validating msg bytes ph → timestampsAgree m = true →
      Responds s (.validated (.ok (.valid m))) (.verified msg true)

theorem receive_sameStores (s : App) (nowMillis : UInt64) (msg : Message) :
    SameStores (s.receive nowMillis msg).toActor s.toActor := by
  cases msg with
  | propose msg =>
    have hs := proposeRequest_sameStores s.toActor msg nowMillis
    simp only [receive]
    split
    · next a h => rw [h] at hs; exact hs
    · next a req h => rw [h] at hs; exact hs
  | verify msg =>
    have hs := verifyLookup_sameStores s.toActor msg
    simp only [receive]
    split
    · next a valid h => rw [h] at hs; exact hs
    · next a bytes ph h => rw [h] at hs; exact hs
  | broadcast msg => exact .refl s.toActor

theorem broadcast_sameStores {a a' : Actor} {digest : Digest} {plan : Plan}
    {transport : Transport} {submission : Option Submission}
    (h : BlockRelay.broadcast a digest plan transport = some (a', submission)) :
    SameStores a' a := by
  obtain ⟨pending, _, h⟩ := Option.map_eq_some_iff.mp h
  split at h
  · cases h
    exact .refl a
  · split at h
    · cases h
      exact count_sameStores a _
    · cases h
      exact count_sameStores a _

theorem broadcast_receiver {a a' : Actor} {digest : Digest} {plan : Plan}
    {transport : Transport} {submission : Option Submission}
    (h : BlockRelay.broadcast a digest plan transport = some (a', submission)) :
    a'.receiver = a.receiver := by
  obtain ⟨pending, _, h⟩ := Option.map_eq_some_iff.mp h
  split at h
  · cases h
    rfl
  · split at h
    · cases h
      rfl
    · cases h
      rfl

/-- Only three kinds of step touch the stores: a built block is recorded, an
accepted block is recorded, or a block message is stored. -/
theorem stores_step_cases (s : App) (e : Event) :
    SameStores (s.step e).toActor s.toActor ∨
      (∃ msg req payload, s.stage = .building msg req ∧ e = .built (.ok payload) ∧
        (s.step e).toActor = (s.toActor.proposeRecord msg req (.ok payload)).1) ∨
      (∃ msg bytes ph m, s.stage = .validating msg bytes ph ∧ e = .validated (.ok (.valid m)) ∧
        timestampsAgree m = true ∧
        (s.step e).toActor = (s.toActor.verifyRecord msg (.ok (.valid m))).1) ∨
      (∃ data, e = .blockMessage data ∧ (s.step e).toActor = receiveBlock s.toActor data) := by
  cases e with
  | enqueue msg => exact .inl ⟨rfl, rfl, rfl, rfl, rfl⟩
  | recv nowMillis =>
    refine .inl ?_
    simp only [step]
    split
    · next msg rest _ _ =>
      have h := receive_sameStores { s with receiver := rest } nowMillis msg
      exact ⟨h.validators, h.proposals, h.pendingBlocks, h.receivedBlocks, h.blockInfo⟩
    · exact .refl s.toActor
  | built result =>
    simp only [step]
    split
    · next msg req hstage =>
      cases result with
      | error reason => exact .inl (count_sameStores s.toActor _)
      | ok payload => exact .inr (.inl ⟨msg, req, payload, hstage, rfl, rfl⟩)
    · exact .inl (.refl s.toActor)
  | validated result =>
    simp only [step]
    split
    · next msg bytes ph hstage =>
      by_cases ha : Accepts result
      · obtain ⟨m, rfl, hm⟩ := ha
        exact .inr (.inr (.inl ⟨msg, bytes, ph, m, hstage, rfl, hm, rfl⟩))
      · exact .inl (verifyRecord_refuses s.toActor msg ha).1
    · exact .inl (.refl s.toActor)
  | blockMessage data => exact .inr (.inr (.inr ⟨data, rfl, rfl⟩))
  | blockChannelError => exact .inl (count_sameStores s.toActor _)
  | broadcast digest plan transport =>
    refine .inl ?_
    simp only [step]
    split
    · next a submission h => exact broadcast_sameStores h
    · exact .refl s.toActor
  | report activity =>
    refine .inl ?_
    simp only [step]
    split
    · exact count_sameStores s.toActor _
    · exact .refl s.toActor

/-! ### Records -/

/-- A record was there before the step, or the step wrote it. -/
theorem info_step_cases {s : App} {e : Event} {d : Digest} {i : BlockInfo}
    (h : (s.step e).info d = some i) : s.info d = some i ∨ Records s e d i := by
  rcases stores_step_cases s e with hs | ⟨msg, req, payload, hstage, rfl, hs⟩ |
    ⟨msg, bytes, ph, m, hstage, rfl, hm, hs⟩ | ⟨data, rfl, hs⟩
  · rw [info, hs.blockInfo] at h
    exact .inl h
  · rw [info, hs] at h
    rcases Lock.lookup_insert_cases h with hold | ⟨rfl, rfl⟩
    · exact .inl hold
    · exact .inr (.proposed hstage)
  · rw [info, hs, verifyRecord_accepts s.toActor msg hm] at h
    rcases Lock.lookup_insert_cases h with hold | ⟨rfl, rfl⟩
    · exact .inl hold
    · exact .inr (.verified hstage hm)
  · rw [info, hs, (receiveBlock_frame s.toActor data).2.2.2.2.1] at h
    exact .inl h

/-- Under a healthy lock the step does write its record. -/
theorem info_step_of_records {s : App} {e : Event} {d : Digest} {i : BlockInfo}
    (hl : s.blockInfo.poisoned = false) (h : Records s e d i) : (s.step e).info d = some i := by
  cases h with
  | proposed hstage =>
    simp only [step, hstage]
    exact Lock.lookup_insert_self hl _ _
  | verified hstage hm =>
    simp only [step, hstage, finishVerify, verifyRecord_accepts s.toActor _ hm]
    exact Lock.lookup_insert_self hl _ _

/-- No step takes an entry of a store away. -/
theorem stores_step_grow {s : App} (e : Event) (d : Digest) :
    ((s.info d).isSome → ((s.step e).info d).isSome) ∧
      ((s.pendingBlocks.value.lookup d).isSome →
        ((s.step e).pendingBlocks.value.lookup d).isSome) ∧
      ((s.receivedBlocks.value.lookup d).isSome →
        ((s.step e).receivedBlocks.value.lookup d).isSome) := by
  rcases stores_step_cases s e with hs | ⟨msg, req, payload, _, rfl, hs⟩ |
    ⟨msg, bytes, ph, m, _, rfl, hm, hs⟩ | ⟨data, rfl, hs⟩
  · rw [info, info, hs.blockInfo, hs.pendingBlocks, hs.receivedBlocks]
    exact ⟨id, id, id⟩
  · rw [info, info, hs]
    exact ⟨Lock.lookup_insert_isSome, Lock.lookup_insert_isSome, id⟩
  · rw [info, info, hs, verifyRecord_accepts s.toActor msg hm]
    exact ⟨Lock.lookup_insert_isSome, id, id⟩
  · rw [info, info, hs, (receiveBlock_frame s.toActor data).2.2.2.1,
      (receiveBlock_frame s.toActor data).2.2.2.2.1]
    refine ⟨id, id, fun h => ?_⟩
    unfold receiveBlock
    split
    · exact h
    · split
      · exact h
      · exact Lock.lookup_insert_isSome h

theorem info_step_isSome {s : App} {d : Digest} (e : Event) (h : (s.info d).isSome) :
    ((s.step e).info d).isSome :=
  (stores_step_grow e d).1 h

theorem pending_step_isSome {s : App} {d : Digest} (e : Event)
    (h : (s.pendingBlocks.value.lookup d).isSome) :
    ((s.step e).pendingBlocks.value.lookup d).isSome :=
  (stores_step_grow e d).2.1 h

theorem received_step_isSome {s : App} {d : Digest} (e : Event)
    (h : (s.receivedBlocks.value.lookup d).isSome) :
    ((s.step e).receivedBlocks.value.lookup d).isSome :=
  (stores_step_grow e d).2.2 h

/-! ### Block bytes -/

/-- Bytes in `pending_blocks` were there before the step, or the node has just
built them. -/
theorem pending_step_cases {s : App} {e : Event} {d : Digest} {bytes : Bytes}
    (h : (s.step e).pendingBlocks.value.lookup d = some bytes) :
    s.pendingBlocks.value.lookup d = some bytes ∨
      ∃ msg req payload, s.stage = .building msg req ∧ e = .built (.ok payload) ∧
        d = ⟨payload.blockHash⟩ ∧ bytes = payload.blockBytes := by
  rcases stores_step_cases s e with hs | ⟨msg, req, payload, hstage, rfl, hs⟩ |
    ⟨msg, bytes', ph, m, _, rfl, hm, hs⟩ | ⟨data, rfl, hs⟩
  · rw [hs.pendingBlocks] at h
    exact .inl h
  · rw [hs] at h
    rcases Lock.lookup_insert_cases h with hold | ⟨rfl, rfl⟩
    · exact .inl hold
    · exact .inr ⟨msg, req, payload, hstage, rfl, rfl, rfl⟩
  · rw [hs, verifyRecord_accepts s.toActor msg hm] at h
    exact .inl h
  · rw [hs, (receiveBlock_frame s.toActor data).2.2.2.1] at h
    exact .inl h

/-- Under a healthy lock the step that builds a block stores its bytes. -/
theorem pending_step_of_built {s : App} {msg : Propose} {req : BuildPayloadRequest}
    (hl : s.pendingBlocks.poisoned = false) (hstage : s.stage = .building msg req)
    (payload : BuiltPayload) :
    (s.step (.built (.ok payload))).pendingBlocks.value.lookup ⟨payload.blockHash⟩ =
      some payload.blockBytes := by
  simp only [step, hstage]
  exact Lock.lookup_insert_self hl _ _

/-- What goes out on the block channel is a block of `pending_blocks` under its digest. -/
theorem mem_sends {s : App} {e : Event} {data : Bytes} (h : data ∈ s.sends e) :
    ∃ d bytes, s.pendingBlocks.value.lookup d = some bytes ∧ data = wireMessage d bytes := by
  cases e with
  | broadcast digest plan transport =>
    simp only [sends] at h
    split at h
    · next a submission hb =>
      obtain ⟨pending, hread, hb⟩ := Option.map_eq_some_iff.mp hb
      obtain ⟨_, rfl⟩ := Lock.read_eq_some.mp hread
      split at hb
      · cases hb
      · next bytes hlookup =>
        split at hb
        · cases hb
          split at h
          · exact ⟨digest, bytes, hlookup, List.mem_singleton.mp h⟩
          · cases h
        · cases hb
    · cases h
  | _ => cases h

/-- Bytes in `received_blocks` were there before the step, or they have just
arrived on the block channel. -/
theorem received_step_cases {s : App} {e : Event} {d : Digest} {bytes : Bytes}
    (h : (s.step e).receivedBlocks.value.lookup d = some bytes) :
    s.receivedBlocks.value.lookup d = some bytes ∨
      ∃ data, e = .blockMessage data ∧ parseBlockMessage data = some (d, bytes) := by
  rcases stores_step_cases s e with hs | ⟨msg, req, payload, hstage, rfl, hs⟩ |
    ⟨msg, bytes', ph, m, _, rfl, hm, hs⟩ | ⟨data, rfl, hs⟩
  · rw [hs.receivedBlocks] at h
    exact .inl h
  · rw [hs] at h
    exact .inl h
  · rw [hs, verifyRecord_accepts s.toActor msg hm] at h
    exact .inl h
  · rw [hs] at h
    unfold receiveBlock at h
    split at h
    · exact .inl h
    · next digest blockVec hp =>
      split at h
      · exact .inl h
      · rcases Lock.lookup_insert_cases h with hold | ⟨rfl, rfl⟩
        · exact .inl hold
        · exact .inr ⟨data, rfl, hp⟩

/-! ### Stages -/

/-- The relay leaves the actor where it is: its stage, its responses and its mailbox. -/
theorem broadcast_frame (s : App) (digest : Digest) (plan : Plan) (transport : Transport) :
    (s.step (.broadcast digest plan transport)).stage = s.stage ∧
      (s.step (.broadcast digest plan transport)).answers = s.answers ∧
      (s.step (.broadcast digest plan transport)).receiver = s.receiver := by
  simp only [step]
  split
  · next a submission h => exact ⟨rfl, rfl, broadcast_receiver h⟩
  · exact ⟨rfl, rfl, rfl⟩

/-- So does the reporter. -/
theorem report_frame (s : App) (activity : Activity) :
    (s.step (.report activity)).stage = s.stage ∧
      (s.step (.report activity)).answers = s.answers ∧
      (s.step (.report activity)).receiver = s.receiver := by
  simp only [step]
  split
  · exact ⟨rfl, rfl, rfl⟩
  · exact ⟨rfl, rfl, rfl⟩

/-- How the actor comes to wait: it was waiting before, or it has just taken
the message at the head of its mailbox. -/
theorem stage_step_cases (s : App) (e : Event) :
    (s.step e).stage = s.stage ∨ (s.step e).stage = .idle ∨
      (∃ msg rest nowMillis, s.stage = .idle ∧ s.receiver = .propose msg :: rest ∧
        e = .recv nowMillis ∧ s.blockInfo.poisoned = false ∧
        (s.step e).stage = .building msg (buildRequest s.blockInfo.value msg nowMillis)) ∨
      (∃ msg rest nowMillis bytes, s.stage = .idle ∧ s.receiver = .verify msg :: rest ∧
        e = .recv nowMillis ∧ (s.validators.lookup msg.proposer).isSome ∧
        s.blockBytes s.pendingBlocks.value msg.payload = some bytes ∧
        (s.step e).stage = .validating msg bytes msg.parent.2.get) := by
  cases e with
  | enqueue msg => exact .inl rfl
  | recv nowMillis =>
    simp only [step]
    split
    · next msg rest hstage hrecv =>
      cases msg with
      | propose msg =>
        simp only [receive]
        split
        · exact .inr (.inl rfl)
        · next a req h =>
          obtain ⟨map, hmap, rfl⟩ := Option.map_eq_some_iff.mp (congrArg Prod.snd h)
          obtain ⟨hl, rfl⟩ := Lock.read_eq_some.mp hmap
          exact .inr (.inr (.inl ⟨msg, rest, nowMillis, hstage, hrecv, rfl, hl, rfl⟩))
      | verify msg =>
        simp only [receive]
        split
        · exact .inr (.inl rfl)
        · next a bytes ph h =>
          obtain ⟨hv, _, hb, rfl, _⟩ := verifyLookup_eq_validate h
          exact .inr (.inr (.inr ⟨msg, rest, nowMillis, bytes, hstage, hrecv, rfl, hv, hb, rfl⟩))
      | broadcast msg => exact .inl rfl
    · exact .inl rfl
  | built result =>
    simp only [step]
    split
    · exact .inr (.inl rfl)
    · exact .inl rfl
  | validated result =>
    simp only [step]
    split
    · exact .inr (.inl rfl)
    · exact .inl rfl
  | blockMessage data => exact .inl rfl
  | blockChannelError => exact .inl rfl
  | broadcast digest plan transport => exact .inl (broadcast_frame s digest plan transport).1
  | report activity => exact .inl (report_frame s activity).1

/-- Bytes under verification were so before the step, or the step has just
found them in one of the two stores. -/
theorem validating_step_cases {s : App} {e : Event} {msg : Verify} {bytes : Bytes} {ph : B256}
    (h : (s.step e).stage = .validating msg bytes ph) :
    s.stage = .validating msg bytes ph ∨ s.pendingBlocks.value.lookup msg.payload = some bytes ∨
      s.receivedBlocks.value.lookup msg.payload = some bytes := by
  rcases stage_step_cases s e with hs | hs | ⟨_, _, _, _, _, _, _, hs⟩ |
    ⟨msg', _, _, bytes', _, _, _, _, hb, hs⟩
  · exact .inl (hs ▸ h)
  · rw [hs] at h
    cases h
  · rw [hs] at h
    cases h
  · rw [hs] at h
    cases h
    exact .inr (blockBytes_cases hb)

/-- A step that writes `block_info` ends a handler. -/
theorem blockInfo_step (s : App) (e : Event) :
    (s.step e).blockInfo = s.blockInfo ∨ (s.step e).stage = .idle := by
  rcases stores_step_cases s e with hs | ⟨msg, req, payload, hstage, rfl, _⟩ |
    ⟨msg, bytes, ph, m, hstage, rfl, _, _⟩ | ⟨data, rfl, hs⟩
  · exact .inl hs.blockInfo
  · refine .inr ?_
    simp only [step, hstage]
    rfl
  · refine .inr ?_
    simp only [step, hstage]
    rfl
  · rw [hs]
    exact .inl (receiveBlock_frame s.toActor data).2.2.2.2.1

/-- The build request that the actor waits on is the one for the records as
they are now. -/
def RequestCurrent (s : App) : Prop :=
  ∀ msg req, s.stage = .building msg req →
    ∃ nowMillis, req = buildRequest s.blockInfo.value msg nowMillis

theorem requestCurrent_step {s : App} (e : Event) (h : s.RequestCurrent) :
    (s.step e).RequestCurrent := by
  intro msg req hnew
  have hinfo : (s.step e).blockInfo = s.blockInfo := by
    rcases blockInfo_step s e with hb | hidle
    · exact hb
    · rw [hidle] at hnew
      cases hnew
  rw [hinfo]
  rcases stage_step_cases s e with hs | hs | ⟨msg', _, nowMillis, _, _, _, _, hs⟩ |
    ⟨_, _, _, _, _, _, _, _, _, hs⟩
  · exact h msg req (hs ▸ hnew)
  · rw [hs] at hnew
    cases hnew
  · rw [hs] at hnew
    cases hnew
    exact ⟨nowMillis, rfl⟩
  · rw [hs] at hnew
    cases hnew

theorem requestCurrent_new (validators : ValidatorSet) (metrics : Option ConsensusMetrics)
    (g : GenesisInfo) : (App.new validators metrics g).RequestCurrent :=
  fun _ _ h => (nomatch h)

/-! ### Responses -/

theorem receive_answers (s : App) (nowMillis : UInt64) (msg : Message) (hs : s.stage = .idle)
    {rest : List Message} {s' : App} (hs' : s' = { s with receiver := rest })
    (hrecv : s.receiver = msg :: rest) :
    (s'.receive nowMillis msg).answers = s.answers ∨
      ∃ answer, Responds s (.recv nowMillis) answer ∧
        (s'.receive nowMillis msg).answers = s.answers ++ [answer] := by
  subst hs'
  cases msg with
  | propose msg =>
    simp only [receive]
    split
    · next a h =>
      refine .inr ⟨_, .dropped hs hrecv ?_, rfl⟩
      have hread : s.blockInfo.read = none := Option.map_eq_none_iff.mp (congrArg Prod.snd h)
      cases hp : s.blockInfo.poisoned with
      | true => rfl
      | false => rw [Lock.read_eq_some.mpr ⟨hp, rfl⟩] at hread; cases hread
    · exact .inl rfl
  | verify msg =>
    simp only [receive]
    split
    · next a valid h =>
      cases verifyLookup_eq_answer h
      exact .inr ⟨_, .rejected hs hrecv h, rfl⟩
    · exact .inl rfl
  | broadcast msg => exact .inl rfl

/-- A step sends no response, or one that `Responds` lists. -/
theorem answers_step (s : App) (e : Event) :
    (s.step e).answers = s.answers ∨
      ∃ answer, Responds s e answer ∧ (s.step e).answers = s.answers ++ [answer] := by
  cases e with
  | enqueue msg => exact .inl rfl
  | recv nowMillis =>
    simp only [step]
    split
    · next msg rest hstage hrecv => exact receive_answers s nowMillis msg hstage rfl hrecv
    · exact .inl rfl
  | built result =>
    simp only [step]
    split
    · next msg req hstage =>
      cases result with
      | error reason => exact .inr ⟨_, .failed hstage, rfl⟩
      | ok payload => exact .inr ⟨_, .proposed hstage, rfl⟩
    · exact .inl rfl
  | validated result =>
    simp only [step]
    split
    · next msg bytes ph hstage =>
      by_cases ha : Accepts result
      · obtain ⟨m, rfl, hm⟩ := ha
        refine .inr ⟨_, .accepted hstage hm, ?_⟩
        simp only [finishVerify, verifyRecord_accepts s.toActor msg hm, respond]
      · refine .inr ⟨_, .refused hstage ha, ?_⟩
        simp only [finishVerify, respond, (verifyRecord_refuses s.toActor msg ha).2]
    · exact .inl rfl
  | blockMessage data => exact .inl rfl
  | blockChannelError => exact .inl rfl
  | broadcast digest plan transport => exact .inl (broadcast_frame s digest plan transport).2.1
  | report activity => exact .inl (report_frame s activity).2.1

/-- A response that is new after a step was sent by it. -/
theorem mem_answers_step {s : App} {e : Event} {answer : Answer}
    (h : answer ∈ (s.step e).answers) : answer ∈ s.answers ∨ Responds s e answer := by
  rcases answers_step s e with hs | ⟨answer', hr, hs⟩
  · rw [hs] at h
    exact .inl h
  · rw [hs] at h
    rcases List.mem_append.mp h with h | h
    · exact .inl h
    · rw [List.mem_singleton.mp h]
      exact .inr hr

/-- Responses are never taken back. -/
theorem answers_step_mono {s : App} {answer : Answer} (e : Event) (h : answer ∈ s.answers) :
    answer ∈ (s.step e).answers := by
  rcases answers_step s e with hs | ⟨answer', _, hs⟩
  · rw [hs]
    exact h
  · rw [hs]
    exact List.mem_append_left _ h

/-! ### Mailbox, validators and locks -/

theorem receive_receiver (s : App) (nowMillis : UInt64) (msg : Message) :
    (s.receive nowMillis msg).receiver = s.receiver := by
  cases msg with
  | propose msg =>
    have hr : (s.proposeRequest msg nowMillis).1.receiver = s.receiver := rfl
    simp only [receive]
    split
    · next a h => rw [h] at hr; exact hr
    · next a req h => rw [h] at hr; exact hr
  | verify msg =>
    have hr := verifyLookup_receiver s.toActor msg
    simp only [receive]
    split
    · next a valid h => rw [h] at hr; exact hr
    · next a bytes ph h => rw [h] at hr; exact hr
  | broadcast msg => rfl

/-- A message that is taken is answered at once, or its handler waits for the builder. -/
theorem receive_stage (s : App) (nowMillis : UInt64) (msg : Message) (hs : s.stage = .idle) :
    (s.receive nowMillis msg).stage = .idle ∨ (s.receive nowMillis msg).stage.message = [msg] := by
  cases msg with
  | propose msg =>
    simp only [receive]
    split
    · exact .inl rfl
    · exact .inr rfl
  | verify msg =>
    simp only [receive]
    split
    · exact .inl rfl
    · exact .inr rfl
  | broadcast msg => exact .inl hs

/-- The messages that were not finished: the one a handler works on and those in
the mailbox, oldest first. -/
def outstanding (s : App) : List Message := s.stage.message ++ s.receiver

/-- The step takes the messages `finished` off the front. A record that it writes is for
one of them. -/
def Finishes (s : App) (e : Event) (finished : List Message) : Prop :=
  s.outstanding = finished ++ (s.step e).outstanding ∧
    ∀ d i, Records s e d i → ∃ msg ∈ finished, Message.Names (s.step e).answers d msg

theorem finishes_nil {s : App} {e : Event} (hn : ∀ d i, ¬ Records s e d i)
    (hs : (s.step e).outstanding = s.outstanding) : s.Finishes e [] := by
  refine ⟨?_, fun d i hr => absurd hr (hn d i)⟩
  rw [hs]
  rfl

theorem finishes_recv (s : App) (nowMillis : UInt64) :
    ∃ finished, s.Finishes (.recv nowMillis) finished := by
  have hrec : ∀ d i, ¬ Records s (.recv nowMillis) d i := by
    intro d i hr
    cases hr
  have hnames : ∀ {finished : List Message} d i, Records s (.recv nowMillis) d i →
      ∃ msg ∈ finished, Message.Names (s.step (.recv nowMillis)).answers d msg :=
    fun d i hr => absurd hr (hrec d i)
  by_cases htake : ∃ msg rest, s.stage = .idle ∧ s.receiver = msg :: rest
  · obtain ⟨msg, rest, hstage, hrecv⟩ := htake
    have hfront : s.outstanding = msg :: rest := by
      rw [outstanding, hstage, hrecv]
      rfl
    have hstep : s.step (.recv nowMillis) = receive { s with receiver := rest } nowMillis msg := by
      simp only [step, hstage, hrecv]
    have hr := receive_receiver { s with receiver := rest } nowMillis msg
    -- the message is finished at once, or it is what the handler now works on
    rcases receive_stage { s with receiver := rest } nowMillis msg hstage with hs | hs
    · refine ⟨[msg], ?_, hnames⟩
      rw [hfront, hstep, outstanding, hs, hr]
      rfl
    · refine ⟨[], ?_, hnames⟩
      rw [hfront, hstep, outstanding, hs, hr]
      rfl
  · refine ⟨[], finishes_nil hrec ?_⟩
    simp only [step]
    split
    · next msg rest hstage hrecv => exact absurd ⟨msg, rest, hstage, hrecv⟩ htake
    · rfl

theorem finishes_built (s : App) (result : Except String BuiltPayload) :
    ∃ finished, s.Finishes (.built result) finished := by
  unfold Finishes
  simp only [step]
  split
  · next msg req hstage =>
    have hr : (s.finishPropose msg req result).receiver = s.receiver := by
      cases result with
      | error reason => rfl
      | ok payload => rfl
    refine ⟨[.propose msg], ?_, fun d i hrec => ?_⟩
    · simp only [outstanding, hstage, hr, Stage.message]
      rfl
    · cases hrec with
      | proposed hstage' =>
        cases hstage.symm.trans hstage'
        exact ⟨_, List.mem_singleton_self _, List.mem_append_right _ (List.mem_singleton_self _)⟩
  · next hstage =>
    refine ⟨[], rfl, fun d i hrec => ?_⟩
    cases hrec with
    | proposed hstage' => exact absurd hstage' (hstage _ _)

theorem finishes_validated (s : App) (result : Except String ValidationResult) :
    ∃ finished, s.Finishes (.validated result) finished := by
  unfold Finishes
  simp only [step]
  split
  · next msg bytes ph hstage =>
    have hr : (s.finishVerify msg result).receiver = s.receiver :=
      verifyRecord_receiver s.toActor msg result
    refine ⟨[.verify msg], ?_, fun d i hrec => ?_⟩
    · simp only [outstanding, hstage, hr, Stage.message]
      rfl
    · cases hrec with
      | verified hstage' =>
        cases hstage.symm.trans hstage'
        exact ⟨_, List.mem_singleton_self _, rfl⟩
  · next hstage =>
    refine ⟨[], rfl, fun d i hrec => ?_⟩
    cases hrec with
    | verified hstage' => exact absurd hstage' (hstage _ _ _)

/-- The mailbox is a queue: the engine appends at its end, and the actor finishes
messages from the front. A step that writes a record finishes the message that
the record is for. -/
theorem outstanding_step (s : App) (e : Event) :
    (∃ msg, e = .enqueue msg ∧ (s.step e).outstanding = s.outstanding ++ [msg]) ∨
      ((∀ msg, e ≠ .enqueue msg) ∧
        ∃ finished, s.outstanding = finished ++ (s.step e).outstanding ∧
          ∀ d i, Records s e d i → ∃ msg ∈ finished, Message.Names (s.step e).answers d msg) := by
  cases e with
  | enqueue msg => exact .inl ⟨msg, rfl, (List.append_assoc _ _ _).symm⟩
  | recv nowMillis => exact .inr ⟨by rintro msg ⟨⟩, finishes_recv s nowMillis⟩
  | built result => exact .inr ⟨by rintro msg ⟨⟩, finishes_built s result⟩
  | validated result => exact .inr ⟨by rintro msg ⟨⟩, finishes_validated s result⟩
  | blockMessage data =>
    refine .inr ⟨by rintro msg ⟨⟩, [], finishes_nil (by rintro d i ⟨⟩) ?_⟩
    exact congrArg (s.stage.message ++ ·) (receiveBlock_frame s.toActor data).1
  | blockChannelError =>
    exact .inr ⟨by rintro msg ⟨⟩, [], finishes_nil (by rintro d i ⟨⟩) rfl⟩
  | broadcast digest plan transport =>
    obtain ⟨hstage, -, hrecv⟩ := broadcast_frame s digest plan transport
    refine .inr ⟨by rintro msg ⟨⟩, [], finishes_nil (by rintro d i ⟨⟩) ?_⟩
    rw [outstanding, hstage, hrecv, outstanding]
  | report activity =>
    obtain ⟨hstage, -, hrecv⟩ := report_frame s activity
    refine .inr ⟨by rintro msg ⟨⟩, [], finishes_nil (by rintro d i ⟨⟩) ?_⟩
    rw [outstanding, hstage, hrecv, outstanding]

theorem validators_step (s : App) (e : Event) : (s.step e).validators = s.validators := by
  rcases stores_step_cases s e with hs | ⟨msg, req, payload, _, rfl, hs⟩ |
    ⟨msg, bytes, ph, m, _, rfl, hm, hs⟩ | ⟨data, rfl, hs⟩
  · exact hs.validators
  · rw [hs]
    rfl
  · rw [hs, verifyRecord_accepts s.toActor msg hm]
    rfl
  · rw [hs]
    exact (receiveBlock_frame s.toActor data).2.1

/-- No step poisons a lock. -/
theorem healthy_step {s : App} (e : Event) (h : s.Healthy) : (s.step e).Healthy := by
  rcases stores_step_cases s e with hs | ⟨msg, req, payload, _, rfl, hs⟩ |
    ⟨msg, bytes, ph, m, _, rfl, hm, hs⟩ | ⟨data, rfl, hs⟩
  · exact ⟨hs.proposals ▸ h.proposals, hs.pendingBlocks ▸ h.pendingBlocks,
      hs.receivedBlocks ▸ h.receivedBlocks, hs.blockInfo ▸ h.blockInfo⟩
  · rw [hs]
    exact ⟨(Lock.modify_poisoned _ _).trans h.proposals,
      (Lock.insert_poisoned _ _ _).trans h.pendingBlocks, h.receivedBlocks,
      (Lock.insert_poisoned _ _ _).trans h.blockInfo⟩
  · rw [hs, verifyRecord_accepts s.toActor msg hm]
    exact ⟨h.proposals, h.pendingBlocks, h.receivedBlocks,
      (Lock.insert_poisoned _ _ _).trans h.blockInfo⟩
  · rw [hs]
    obtain ⟨_, _, hpr, hpe, hb, hr⟩ := receiveBlock_frame s.toActor data
    exact ⟨hpr ▸ h.proposals, hpe ▸ h.pendingBlocks, hr.trans h.receivedBlocks,
      hb ▸ h.blockInfo⟩

theorem healthy_new (validators : ValidatorSet) (metrics : Option ConsensusMetrics)
    (g : GenesisInfo) : (App.new validators metrics g).Healthy := ⟨rfl, rfl, rfl, rfl⟩

/-- In a fresh actor the only record is that of genesis. -/
theorem healthy_run (validators : ValidatorSet) (metrics : Option ConsensusMetrics)
    (g : GenesisInfo) (es : List Event) :
    (Run.run step (App.new validators metrics g) es).Healthy :=
  Run.run_invariant (P := fun s : App => s.Healthy) (fun _ e h => healthy_step e h)
    (healthy_new validators metrics g) es

theorem info_new {validators : ValidatorSet} {metrics : Option ConsensusMetrics}
    {g : GenesisInfo} {d : Digest} {i : BlockInfo}
    (h : (App.new validators metrics g).info d = some i) : d = Digest.EMPTY ∧ i = g.record := by
  rcases Lock.lookup_insert_cases h with hold | hnew
  · cases hold
  · exact hnew

theorem info_new_empty (validators : ValidatorSet) (metrics : Option ConsensusMetrics)
    (g : GenesisInfo) : (App.new validators metrics g).info Digest.EMPTY = some g.record :=
  Lock.lookup_insert_self rfl _ _

end App

end Allegro
