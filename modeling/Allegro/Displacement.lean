import Allegro.Node

/-!
# Can a peer displace a stored block?

`spawn_block_receiver` files the bytes of a message under the digest that the
message claims, in place of what was there. It looks at neither the bytes nor
the sender. `handle_verify` takes its own blocks first and what was received
last otherwise. So a block that a node holds is verified after further messages
exactly when it is the node's own, or when the last message that claims its
digest carries bytes that the builder accepts as well.

Results:
1. `received_run`: what the store holds after any sequence of messages.
2. `handleVerify_eq_loop`: the handler is what the event loop does in two steps.
3. `verify_survives_iff_last_claim_accepted`: when a `Verify` outlives a sequence.
4. `honest_block_displaced`: one message with a claimed digest and other bytes.
-/

namespace Allegro

open Run Actor

/-- The bytes that a block message carries for `d`. -/
def claims (d : Digest) (data : Bytes) : Option Bytes :=
  match parseBlockMessage data with
  | some (digest, bytes) => if digest = d then some bytes else none
  | none => none

/-- The bytes that the last message to claim `d` carries for it. -/
def lastClaim (d : Digest) (datas : List Bytes) : Option Bytes :=
  (datas.filterMap (claims d)).getLast?

namespace DisplacementLemmas

theorem received_receiveBlock {a : Actor} (hl : a.receivedBlocks.poisoned = false) (d : Digest)
    (data : Bytes) :
    (receiveBlock a data).receivedBlocks.value.lookup d =
      (claims d data).or (a.receivedBlocks.value.lookup d) := by
  cases hp : parseBlockMessage data with
  | none => simp only [receiveBlock, claims, hp, Option.none_or]
  | some parsed =>
    obtain ⟨digest, bytes⟩ := parsed
    simp only [receiveBlock, claims, hp, hl, Bool.false_eq_true, if_false]
    by_cases hd : digest = d
    · subst hd
      rw [if_pos rfl]
      exact Lock.lookup_insert_self hl digest bytes
    · rw [if_neg hd]
      exact Lock.lookup_insert_ne _ (Ne.symm hd) bytes

/-- Block messages leave everything alone that the lookup of a `Verify` reads,
except `received_blocks`, where the last claim of a digest stands. -/
theorem received_run (datas : List Bytes) {s : App} (hl : s.Healthy) (d : Digest) :
    (run App.step s (datas.map .blockMessage)).Healthy ∧
      (run App.step s (datas.map .blockMessage)).validators = s.validators ∧
      (run App.step s (datas.map .blockMessage)).pendingBlocks = s.pendingBlocks ∧
      (run App.step s (datas.map .blockMessage)).receivedBlocks.value.lookup d =
        (lastClaim d datas).or (s.receivedBlocks.value.lookup d) := by
  induction datas generalizing s with
  | nil => exact ⟨hl, rfl, rfl, rfl⟩
  | cons data datas ih =>
    obtain ⟨_, hv, _, hp, _, _⟩ := receiveBlock_frame s.toActor data
    obtain ⟨hl', hv', hp', hr'⟩ := ih (App.healthy_step (.blockMessage data) hl)
    have hr : (s.step (.blockMessage data)).receivedBlocks.value.lookup d =
        (claims d data).or (s.receivedBlocks.value.lookup d) :=
      received_receiveBlock hl.receivedBlocks d data
    rw [List.map_cons, run_cons]
    refine ⟨hl', hv'.trans hv, hp'.trans hp, ?_⟩
    rw [hr', hr, lastClaim, lastClaim, List.filterMap_cons]
    cases claims d data with
    | none => rfl
    | some bytes =>
      rw [List.getLast?_cons]
      cases (datas.filterMap (claims d)).getLast? with
      | none => rfl
      | some bytes' => rfl

/-- Where the bytes of a payload come from: own blocks, then received ones. -/
theorem blockBytes_eq {a : Actor} (hl : a.Healthy) (d : Digest) :
    a.blockBytes a.pendingBlocks.value d =
      (a.pendingBlocks.value.lookup d).or (a.receivedBlocks.value.lookup d) := by
  have hread : a.receivedBlocks.read = some a.receivedBlocks.value :=
    Lock.read_eq_some.mpr ⟨hl.receivedBlocks, rfl⟩
  simp only [blockBytes, hread, Option.bind_some]

end DisplacementLemmas

open DisplacementLemmas

/-- The event loop, from a mailbox with a `Verify` at its head, does what
`handle_verify` does: it answers at once, or with what the builder says to the
bytes it waits on. -/
theorem handleVerify_eq_loop {s : App} {msg : Verify} {rest : List Message}
    (hidle : s.stage = .idle) (hrecv : s.receiver = .verify msg :: rest) (nowMillis : UInt64)
    (validate : Bytes → B256 → Except String ValidationResult) :
    let s₁ := s.step (.recv nowMillis)
    let handled := { s.toActor with receiver := rest }.handleVerify msg validate
    (s₁.stage = .idle ∧ s₁.toActor = handled.1 ∧
        s₁.answers = s.answers ++ [.verified msg handled.2]) ∨
      ∃ bytes ph, s₁.stage = .validating msg bytes ph ∧ s₁.answers = s.answers ∧
        (s₁.step (.validated (validate bytes ph))).toActor = handled.1 ∧
        (s₁.step (.validated (validate bytes ph))).answers =
          s.answers ++ [.verified msg handled.2] := by
  cases h : verifyLookup { s.toActor with receiver := rest } msg with
  | mk a start =>
    simp only [App.step, hidle, hrecv, App.receive, handleVerify, h]
    cases start with
    | answer valid => exact .inl ⟨rfl, rfl, rfl⟩
    | validate bytes ph => exact .inr ⟨bytes, ph, rfl, rfl, rfl, rfl⟩

/-- In every reachable state in which `received_blocks` holds, for a known
proposer's payload, bytes that the builder accepts, and for every sequence of
block messages: a `Verify` for the payload is answered `true` after the sequence
exactly when the builder accepts the node's own bytes for it or, if there are
none, the bytes of the last message of the sequence that claims it. -/
theorem verify_survives_iff_last_claim_accepted (validators : ValidatorSet)
    (metrics : Option ConsensusMetrics) (g : GenesisInfo) (es : List App.Event) (msg : Verify)
    (validate : Bytes → B256 → Except String ValidationResult) (datas : List Bytes) :
    let s := run App.step (App.new validators metrics g) es
    ∀ bytes, (s.validators.lookup msg.proposer).isSome →
      s.receivedBlocks.value.lookup msg.payload = some bytes →
      Accepts (validate bytes msg.parent.2.get) →
      (((run App.step s (datas.map .blockMessage)).handleVerify msg validate).2 = true ↔
        match s.pendingBlocks.value.lookup msg.payload with
        | some own => Accepts (validate own msg.parent.2.get)
        | none => ∀ b, lastClaim msg.payload datas = some b →
            Accepts (validate b msg.parent.2.get)) := by
  intro s bytes hv hbytes haccept
  have hl : s.Healthy := App.healthy_run validators metrics g es
  obtain ⟨hl', hv', hp', hr'⟩ := received_run datas hl msg.payload
  rw [handleVerify_eq_true hl', blockBytes_eq hl', hv', hp', hr', hbytes]
  cases s.pendingBlocks.value.lookup msg.payload with
  | some own =>
    refine ⟨fun ⟨_, b, hb, ha⟩ => ?_, fun ha => ⟨hv, own, rfl, ha⟩⟩
    cases hb
    exact ha
  | none =>
    cases lastClaim msg.payload datas with
    | none => exact ⟨fun _ _ h => (nomatch h), fun _ => ⟨hv, bytes, rfl, haccept⟩⟩
    | some last =>
      constructor
      · rintro ⟨_, b, hb, ha⟩ b' hb'
        cases hb
        cases hb'
        exact ha
      · intro ha
        exact ⟨hv, last, rfl, ha last rfl⟩

/-! ## Two sequences -/

namespace DisplacementLemmas

/-- A node that has received block `one` from its leader. -/
def holding : App :=
  run App.step (App.new sampleValidators none sampleGenesisInfo)
    [.blockMessage (wireMessage SampleHeader.one.digest [2])]

def verifyOne : Verify := sampleVerify .EMPTY SampleHeader.one.digest 1

/-- The verdict of the production closure. -/
def sampleVerdict (bytes : Bytes) (parentHash : B256) : Except String ValidationResult :=
  validateClosure sampleAlloy (sampleReth .one) ⟨bytes, parentHash⟩

end DisplacementLemmas

/-- The block sent once more, and junk under another digest, change nothing. -/
theorem honest_block_survives :
    (holding.validators.lookup verifyOne.proposer).isSome ∧
      holding.receivedBlocks.value.lookup SampleHeader.one.digest = some [2] ∧
      ((run App.step holding
        ([wireMessage SampleHeader.one.digest [2], wireMessage SampleHeader.two.digest [9]].map
          .blockMessage)).handleVerify verifyOne sampleVerdict).2 = true := by
  have haccept : Accepts (sampleVerdict [2] B256.ZERO) :=
    ⟨blockMeta sampleAlloy .one, rfl, by decide⟩
  refine ⟨by decide, by decide, ?_⟩
  refine (verify_survives_iff_last_claim_accepted sampleValidators none sampleGenesisInfo
    [.blockMessage (wireMessage SampleHeader.one.digest [2])] verifyOne sampleVerdict
    [wireMessage SampleHeader.one.digest [2], wireMessage SampleHeader.two.digest [9]] [2]
    (by decide) (by decide) haccept).mpr ?_
  intro b hb
  have hlast : lastClaim verifyOne.payload
      [wireMessage SampleHeader.one.digest [2], wireMessage SampleHeader.two.digest [9]] =
        some [2] := by decide
  cases hb.symm.trans hlast
  exact haccept

/-- A peer sends one byte of junk under the digest of a block that the node holds
and would accept. The `Verify` that follows is answered `false`. -/
theorem honest_block_displaced :
    (holding.validators.lookup verifyOne.proposer).isSome ∧
      holding.receivedBlocks.value.lookup SampleHeader.one.digest = some [2] ∧
      Accepts (sampleVerdict [2] verifyOne.parent.2.get) ∧
      (holding.handleVerify verifyOne sampleVerdict).2 = true ∧
      ((run App.step holding
        ([wireMessage SampleHeader.one.digest [9]].map .blockMessage)).handleVerify verifyOne
          sampleVerdict).2 = false :=
  ⟨by decide, by decide, ⟨blockMeta sampleAlloy .one, rfl, by decide⟩, by decide, by decide⟩

end Allegro
