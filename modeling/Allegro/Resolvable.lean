import Allegro.Node

/-!
# What a node voted for stays resolvable

Both handlers record before they answer, and no task removes an entry from a
store. So a digest that was answered can be looked up in every later state: the
relay finds its bytes, a later proposal finds its parent, and the finalizer finds
the block of a certificate. An entry may be replaced, and then by a block that
the builder returned under the same hash.

Results:
1. `resolvable_step`: one step of any task keeps what was voted for resolvable.
2. `voted_digest_stays_resolvable`: so does every run, with any payload builder.
-/

namespace Allegro

open Run Node Actor

section Definitions

variable {ρ : Type}

/-- The builder returned `payload` to a build request of the run. -/
def Returned (B : PayloadBuilder ρ) (start : Node) (es : List (Node.Event ρ))
    (payload : BuiltPayload) : Prop :=
  ∃ es₁ env es₂ msg req finalized, es = es₁ ++ .built env :: es₂ ∧
    (run (step B) start es₁).stage = .building msg req ∧
    (run (step B) start es₁).anchor = some finalized ∧
    B.buildPayload env finalized req = .ok payload

/-- The node holds a block it proposed under `d`: the bytes of a payload with
that hash, and the relay sends just these. -/
def Relayable (B : PayloadBuilder ρ) (start : Node) (es : List (Node.Event ρ)) (n : Node)
    (d : Digest) : Prop :=
  ∃ payload, Returned B start es payload ∧ payload.blockHash = d.get ∧
    n.pendingBlocks.value.lookup d = some payload.blockBytes ∧
    ∀ plan transport, transport.check plan.recipients = true →
      (BlockRelay.broadcast n.toActor d plan transport).map Prod.snd =
        some (some ⟨plan.recipients, wireMessage d payload.blockBytes⟩)

/-- The node can resolve `d`: a proposal on `d` is built on its record, and the
finalizer does not skip it. -/
structure Resolves (B : PayloadBuilder ρ) (n : Node) (d : Digest) : Prop where
  recorded : (n.info d).isSome
  parent : ∀ msg nowMillis, msg.parent.2 = d → ∃ i req, n.info d = some i ∧
    (n.proposeRequest msg nowMillis).2 = some req ∧ req.parentHash = i.hash ∧
    req.parentNumber = i.number
  finalizer : ∀ e, (n.step B e).log ≠ n.log ++ [.notFound d]

/-- What the answers so far oblige the node to hold. -/
structure Resolvable (B : PayloadBuilder ρ) (start : Node) (es : List (Node.Event ρ)) (n : Node) :
    Prop where
  healthy : n.Healthy
  proposed : ∀ msg d, .proposed msg (some d) ∈ n.answers → (n.info d).isSome ∧
    ∃ payload, Returned B start es payload ∧ payload.blockHash = d.get ∧
      n.pendingBlocks.value.lookup d = some payload.blockBytes
  verified : ∀ msg, .verified msg true ∈ n.answers → (n.info msg.payload).isSome

end Definitions

namespace ResolvableLemmas

variable {ρ : Type} {B : PayloadBuilder ρ} {start n : Node} {es : List (Node.Event ρ)}

theorem returned_concat {payload : BuiltPayload} (e : Node.Event ρ)
    (h : Returned B start es payload) : Returned B start (es ++ [e]) payload := by
  obtain ⟨es₁, env, es₂, msg, req, finalized, rfl, hrest⟩ := h
  exact ⟨es₁, env, es₂ ++ [e], msg, req, finalized, by simp, hrest⟩

/-! ## One step -/

/-- The bytes of an own block stay, or give way to those of a block with the same hash. -/
theorem pending_kept {e : Node.Event ρ} {d : Digest} {payload : BuiltPayload}
    (hret : Returned B start es payload) (hhash : payload.blockHash = d.get)
    (hp : (run (step B) start es).pendingBlocks.value.lookup d = some payload.blockBytes) :
    ∃ payload', Returned B start (es ++ [e]) payload' ∧ payload'.blockHash = d.get ∧
      ((run (step B) start es).step B e).pendingBlocks.value.lookup d =
        some payload'.blockBytes := by
  have hsome : (((run (step B) start es).step B e).pendingBlocks.value.lookup d).isSome :=
    pending_step_isSome e (by rw [hp]; rfl)
  obtain ⟨bytes, hbytes⟩ := Option.isSome_iff_exists.mp hsome
  rcases pending_step_cases hbytes with hold | ⟨env, msg, req, finalized, payload', rfl, hstage,
    hanchor, hb, rfl, rfl⟩
  · rw [hp] at hold
    cases hold
    exact ⟨payload, returned_concat e hret, hhash, hbytes⟩
  · exact ⟨payload', ⟨es, env, [], msg, req, finalized, rfl, hstage, hanchor, hb⟩, rfl, hbytes⟩

theorem resolvable_step (e : Node.Event ρ)
    (h : Resolvable B start es (run (step B) start es)) :
    Resolvable B start (es ++ [e]) ((run (step B) start es).step B e) where
  healthy := Node.healthy_step e h.healthy
  proposed := by
    intro msg d hmem
    rcases Node.mem_answers_step hmem with hold | ⟨ae, hae, hs, hnew⟩
    · obtain ⟨hinfo, payload, hret, hhash, hp⟩ := h.proposed msg d hold
      exact ⟨Node.info_step_isSome e hinfo, pending_kept hret hhash hp⟩
    · cases hnew with
      | proposed hstage =>
        -- the handler records, stores and then answers
        obtain ⟨env, finalized, rfl, hanchor, hb⟩ := drives_built hae hstage
        have hinfo := Node.info_step_of_records h.healthy.blockInfo (.proposed hstage hanchor hb)
        refine ⟨by rw [hinfo]; rfl, _, ⟨es, env, [], msg, _, finalized, rfl, hstage, hanchor, hb⟩,
          rfl, ?_⟩
        rw [hs]
        exact App.pending_step_of_built h.healthy.pendingBlocks hstage _
  verified := by
    intro msg hmem
    rcases Node.mem_answers_step hmem with hold | ⟨ae, hae, _, hnew⟩
    · exact Node.info_step_isSome e (h.verified msg hold)
    · cases hnew with
      | accepted hstage hm =>
        obtain ⟨env, rfl, hv⟩ := drives_validated hae hstage
        rw [Node.info_step_of_records h.healthy.blockInfo (.verified hstage hv hm)]
        rfl

/-! ## What a record gives -/

theorem resolves_of_recorded {d : Digest} (hl : n.Healthy) (h : (n.info d).isSome) :
    Resolves B n d where
  recorded := h
  parent := by
    rintro msg nowMillis rfl
    obtain ⟨i, hi⟩ := Option.isSome_iff_exists.mp h
    obtain ⟨hhash, hnumber, _, _⟩ := buildRequest_known nowMillis hi
    exact ⟨i, _, hi, by rw [proposeRequest_eq hl.blockInfo], hhash, hnumber⟩
  finalizer := by
    intro e hlog
    -- the only step that logs the skip has just found no record
    have hmem : Output.notFound d ∈ (n.step B e).log.drop n.log.length := by
      rw [hlog, List.drop_left]
      exact List.mem_singleton_self _
    cases moves_step (B := B) n e with
    | notFound _ _ hinfo _ _ _ hl' =>
      rw [hl', List.append_cancel_left_eq, List.cons.injEq, Output.notFound.injEq] at hlog
      rw [hlog.1] at hinfo
      rw [hinfo] at h
      cases h
    | quiet _ _ _ _ hl' => simp [hl'] at hmem
    | poisoned _ _ _ _ _ _ hl' => simp [hl'] at hmem
    | buildFcu _ _ _ _ _ hl' | submitted _ _ _ _ _ _ hl' | forwarded _ _ _ _ _ hl'
    | dropped _ _ _ _ _ hl' | finalized _ _ _ _ _ hl' | failed _ _ _ _ _ hl' =>
      simp [hl'] at hmem

end ResolvableLemmas

open ResolvableLemmas

section Runs

variable {ρ : Type}

/-- In every run of a node with any payload builder: a digest that a `Propose`
was answered with is recorded in every later state, is the hash of a payload that
the builder returned, and the relay sends it followed by the bytes of such a
payload whenever the transport check passes. A digest that was proposed or whose
`Verify` was answered `true` resolves in every later state, as a parent and for
the finalizer. A `Propose` whose build fails is not answered. -/
theorem voted_digest_stays_resolvable (B : PayloadBuilder ρ) (validators : ValidatorSet)
    (metrics : Option ConsensusMetrics) (g : GenesisInfo) (senders : Nat)
    (es es' : List (Node.Event ρ)) :
    let start := Node.new validators metrics g senders
    let n := run (step B) start es
    let later := run (step B) start (es ++ es')
    (∀ msg d, .proposed msg (some d) ∈ n.answers →
      Resolves B later d ∧ Relayable B start (es ++ es') later d) ∧
    (∀ msg, .verified msg true ∈ n.answers → Resolves B later msg.payload) ∧
    (∀ msg req finalized env reason, n.stage = .building msg req → n.anchor = some finalized →
      B.buildPayload env finalized req = .error reason →
      (n.step B (.built env)).answers = n.answers ++ [.proposed msg none]) := by
  intro start n later
  have hinv : Resolvable B start (es ++ es') later := by
    refine trace_invariant (step B) start (P := Resolvable B start) ?_
      (fun es e h => resolvable_step e h) (es ++ es')
    exact ⟨App.healthy_new validators metrics g, fun _ _ h => (nomatch h), fun _ h => (nomatch h)⟩
  have hanswers : ∀ a ∈ n.answers, a ∈ later.answers := by
    intro a ha
    show a ∈ (run (step B) start (es ++ es')).answers
    rw [run_append]
    exact run_invariant (P := fun n : Node => a ∈ n.answers)
      (fun _ e h => Node.answers_step_mono e h) ha es'
  refine ⟨fun msg d hmem => ?_, fun msg hmem => ?_, ?_⟩
  · obtain ⟨hinfo, payload, hret, hhash, hp⟩ := hinv.proposed msg d (hanswers _ hmem)
    exact ⟨resolves_of_recorded hinv.healthy hinfo, payload, hret, hhash, hp,
      fun plan transport hc => broadcast_pending hinv.healthy.pendingBlocks hp hc⟩
  · exact resolves_of_recorded hinv.healthy (hinv.verified msg (hanswers _ hmem))
  · intro msg req finalized env reason hstage hanchor hb
    simp only [step, appStep, appEvent, hstage, hanchor, hb]
    simp only [App.step, hstage, App.finishPropose, proposeRecord, App.respond]

end Runs

/-! ## A proposal and its certificate -/

/-- Block `one` is proposed, and later finalized. -/
def proposedRun : List (Node.Event (Reth sampleAlloy)) :=
  [.enqueue (.propose (samplePropose .EMPTY 1)), .recv 11000, .buildFcu, .built (sampleReth .one)]

def certifiedRun : List (Node.Event (Reth sampleAlloy)) :=
  [.report (.finalization SampleHeader.one.digest), .finalizerRecv]

theorem proposed_block_stays_resolvable :
    .proposed (samplePropose .EMPTY 1) (some SampleHeader.one.digest) ∈
        (run (prodStep sampleAlloy) (Node.start sampleConfig) proposedRun).answers ∧
      Resolves (createEnginePayloadBuilder sampleAlloy)
        (run (prodStep sampleAlloy) (Node.start sampleConfig) (proposedRun ++ certifiedRun))
        SampleHeader.one.digest ∧
      Relayable (createEnginePayloadBuilder sampleAlloy) (Node.start sampleConfig)
        (proposedRun ++ certifiedRun)
        (run (prodStep sampleAlloy) (Node.start sampleConfig) (proposedRun ++ certifiedRun))
        SampleHeader.one.digest := by
  have hans : .proposed (samplePropose .EMPTY 1) (some SampleHeader.one.digest) ∈
      (run (prodStep sampleAlloy) (Node.start sampleConfig) proposedRun).answers := by decide
  have h := voted_digest_stays_resolvable (createEnginePayloadBuilder sampleAlloy)
    sampleValidators none sampleConfig.genesis.info 1 proposedRun certifiedRun
  exact ⟨hans, h.1 _ _ hans⟩

end Allegro
