import Allegro.Node

/-!
# Are proposals of different rounds different blocks?

A build request carries the epoch, the view and the proposer, but
`build_payload_attributes` passes on the timestamp alone. Two `Propose`s on the same
parent within one second therefore ask reth for the same block: after a nullified
view, with an unchanged pool, the second proposal has the digest of the first.

Results:
1. `proposals_run`: the answers and the list of proposals are what the builds recorded.
2. `rounds_run`: with one `Propose` for each round, no round is built twice.
3. `proposals_unique_iff`: when the digests differ and every record keeps its view and
   proposer; `same_second_same_digest`: two views get one digest.
-/

namespace Allegro

open Run Node

/-! ## What a node records -/

/-- What a step writes to `block_info`: a block the node built, with the request and
what reth answered, or a block it verified. -/
inductive Recording (A : Alloy)
  | built (msg : Propose) (req : BuildPayloadRequest) (reth : Reth A) (payload : BuiltPayload)
  | verified (msg : Verify)

namespace Recording

variable {A : Alloy}

def digest : Recording A → Digest
  | built _ _ _ payload => ⟨payload.blockHash⟩
  | verified msg => msg.payload

def view : Recording A → UInt64
  | built msg _ _ _ => msg.round.view
  | verified msg => msg.round.view

def proposer : Recording A → PublicKey
  | built msg _ _ _ => msg.leader
  | verified msg => msg.proposer

/-- The proposal that a build answers. -/
def proposal : Recording A → Option (Propose × Digest)
  | built msg _ _ payload => some (msg, ⟨payload.blockHash⟩)
  | verified _ => none

end Recording

/-- The proposal that a response answers. -/
def Answer.proposal : Answer → Option (Propose × Digest)
  | proposed msg (some digest) => some (msg, digest)
  | _ => none

/-- The round of a `Propose`. -/
def Message.proposeRound : Message → Option Round
  | propose msg => some msg.round
  | _ => none

/-- What the step records. -/
def recordings (A : Alloy) (n : Node) : Node.Event (Reth A) → List (Recording A)
  | .built reth =>
    match n.stage, n.anchor with
    | .building msg req, some finalized =>
      match buildClosure A reth finalized req with
      | .ok payload => [.built msg req reth payload]
      | .error _ => []
    | _, _ => []
  | .validated reth =>
    match n.stage with
    | .validating msg bytes parentHash =>
      match validateClosure A reth ⟨bytes, parentHash⟩ with
      | .ok (.valid m) => if Actor.timestampsAgree m then [.verified msg] else []
      | _ => []
    | _ => []
  | _ => []

/-- What a run records. -/
def recorded {A : Alloy} (c : Config A) (es : List (Node.Event (Reth A))) : List (Recording A) :=
  trace (prodStep A) (recordings A) (Node.start c) es

namespace UniquenessLemmas

variable {A : Alloy} {n : Node} {e : Node.Event (Reth A)}

/-- A build of the step, and what it is the build of. -/
theorem built_mem_recordings {msg : Propose} {req : BuildPayloadRequest} {reth : Reth A}
    {payload : BuiltPayload} (h : .built msg req reth payload ∈ recordings A n e) :
    ∃ finalized, e = .built reth ∧ n.stage = .building msg req ∧ n.anchor = some finalized ∧
      buildClosure A reth finalized req = .ok payload := by
  unfold recordings at h
  split at h
  · next reth' =>
    split at h
    · next msg' req' finalized hstage hanchor =>
      split at h
      · next payload' hb =>
        cases List.mem_singleton.mp h
        exact ⟨finalized, rfl, hstage, hanchor, hb⟩
      · cases h
    · cases h
  · split at h
    · split at h
      · split at h
        · cases List.mem_singleton.mp h
        · cases h
      · cases h
    · cases h
  · cases h

theorem verified_mem_recordings {msg : Verify} (h : .verified msg ∈ recordings A n e) :
    ∃ reth bytes ph m, e = .validated reth ∧ n.stage = .validating msg bytes ph ∧
      validateClosure A reth ⟨bytes, ph⟩ = .ok (.valid m) ∧ Actor.timestampsAgree m = true := by
  unfold recordings at h
  split at h
  · split at h
    · split at h
      · cases List.mem_singleton.mp h
      · cases h
    · cases h
  · next reth =>
    split at h
    · next msg' bytes ph hstage =>
      split at h
      · next m hv =>
        split at h
        · next hm =>
          cases List.mem_singleton.mp h
          exact ⟨reth, bytes, ph, m, rfl, hstage, hv, hm⟩
        · cases h
      · cases h
    · cases h
  · cases h

/-- A recording of the step is a record that the step writes. -/
theorem records_of_mem {r : Recording A} (h : r ∈ recordings A n e) :
    ∃ i, Records (createEnginePayloadBuilder A) n e r.digest i ∧ i.view = r.view ∧
      i.proposer = r.proposer := by
  cases r with
  | built msg req reth payload =>
    obtain ⟨finalized, rfl, hstage, hanchor, hb⟩ := built_mem_recordings h
    exact ⟨_, .proposed hstage hanchor hb, rfl, rfl⟩
  | verified msg =>
    obtain ⟨reth, bytes, ph, m, rfl, hstage, hv, hm⟩ := verified_mem_recordings h
    exact ⟨_, .verified hstage hv hm, rfl, rfl⟩

theorem mem_of_records {d : Digest} {i : BlockInfo}
    (h : Records (createEnginePayloadBuilder A) n e d i) :
    ∃ r ∈ recordings A n e, r.digest = d ∧ r.view = i.view ∧ r.proposer = i.proposer := by
  cases h with
  | @proposed msg req finalized reth payload hstage hanchor hb =>
    refine ⟨.built msg req reth payload, ?_, rfl, rfl, rfl⟩
    have hb : buildClosure A reth finalized req = .ok payload := hb
    simp only [recordings, hstage, hanchor, hb, List.mem_singleton]
  | @verified msg bytes ph reth m hstage hv hm =>
    refine ⟨.verified msg, ?_, rfl, rfl, rfl⟩
    have hv : validateClosure A reth ⟨bytes, ph⟩ = .ok (.valid m) := hv
    simp only [recordings, hstage, hv, hm, if_true, List.mem_singleton]

/-! ## Answers and proposals -/

/-- A step that ends no build records no proposal. -/
theorem proposal_recordings_eq_nil (hne : ∀ reth, e ≠ .built reth) :
    (recordings A n e).filterMap Recording.proposal = [] := by
  rw [List.filterMap_eq_nil_iff]
  intro r hr
  cases r with
  | built msg req reth payload =>
    obtain ⟨_, he, _⟩ := built_mem_recordings hr
    exact absurd he (hne reth)
  | verified msg => rfl

/-- A step that ends no build answers no proposal and lists none. -/
theorem proposals_step_of_not_built {ae : App.Event} {s : App} (hne : ∀ result, ae ≠ .built result) :
    (s.step ae).answers.filterMap Answer.proposal = s.answers.filterMap Answer.proposal ∧
      (s.step ae).proposals = s.proposals := by
  constructor
  · rcases App.answers_step s ae with hans | ⟨answer, hresp, hans⟩
    · rw [hans]
    · rw [hans, List.filterMap_append]
      cases hresp with
      | failed _ => exact absurd rfl (hne _)
      | proposed _ => exact absurd rfl (hne _)
      | dropped | rejected | refused | accepted => exact List.append_nil _
  · rcases App.stores_step_cases s ae with hs | ⟨_, _, _, _, rfl, _⟩ |
      ⟨msg, _, _, m, _, rfl, hm, hs⟩ | ⟨data, rfl, hs⟩
    · exact hs.proposals
    · exact absurd rfl (hne _)
    · rw [hs, Actor.verifyRecord_accepts s.toActor msg hm]
      rfl
    · rw [hs]
      exact (Actor.receiveBlock_frame s.toActor data).2.2.1

/-- An answer of the builder ends the build that the actor waits on, or nothing happens. -/
theorem built_step_cases (n : Node) (reth : Reth A) :
    (∃ msg req finalized, n.stage = .building msg req ∧ n.anchor = some finalized ∧
      (n.prodStep A (.built reth)).toApp =
        n.toApp.finishPropose msg req (buildClosure A reth finalized req)) ∨
    ((n.prodStep A (.built reth)).toApp = n.toApp ∧ recordings A n (.built reth) = []) := by
  cases hstage : n.stage with
  | building msg req =>
    cases hanchor : n.anchor with
    | some finalized =>
      refine .inl ⟨msg, req, finalized, rfl, rfl, ?_⟩
      simp only [step, appStep, appEvent, hstage, hanchor, App.step]
      rfl
    | none =>
      refine .inr ?_
      simp only [step, appStep, appEvent, recordings, hstage, hanchor, and_self]
  | idle =>
    refine .inr ?_
    simp only [step, appStep, appEvent, recordings, hstage, and_self]
  | validating msg bytes ph =>
    refine .inr ?_
    simp only [step, appStep, appEvent, recordings, hstage, and_self]

theorem proposals_step (hl : n.Healthy) :
    (n.prodStep A e).answers.filterMap Answer.proposal =
        n.answers.filterMap Answer.proposal ++ (recordings A n e).filterMap Recording.proposal ∧
      (n.prodStep A e).proposals.value =
        n.proposals.value ++ ((recordings A n e).filterMap Recording.proposal).map Prod.snd := by
  by_cases hbuilt : ∃ reth, e = .built reth
  · obtain ⟨reth, rfl⟩ := hbuilt
    rcases built_step_cases n reth with ⟨msg, req, finalized, hstage, hanchor, hs⟩ | ⟨hs, hr⟩
    · rw [hs]
      cases hb : buildClosure A reth finalized req with
      | error reason =>
        have hr : recordings A n (.built reth) = [] := by
          simp only [recordings, hstage, hanchor, hb]
        rw [hr]
        exact ⟨List.filterMap_append, (List.append_nil _).symm⟩
      | ok payload =>
        have hr : recordings A n (.built reth) = [.built msg req reth payload] := by
          simp only [recordings, hstage, hanchor, hb]
        rw [hr]
        refine ⟨List.filterMap_append, ?_⟩
        exact Lock.modify_value hl.proposals _
    · rw [hs, hr]
      exact ⟨(List.append_nil _).symm, (List.append_nil _).symm⟩
  · have hne : ∀ reth, e ≠ .built reth := fun reth he => hbuilt ⟨reth, he⟩
    rw [proposal_recordings_eq_nil hne, List.map_nil, List.append_nil, List.append_nil]
    rcases toApp_step (B := createEnginePayloadBuilder A) n e with hs | ⟨ae, hae, hs⟩
    · rw [hs]
      exact ⟨rfl, rfl⟩
    · rw [hs]
      have hne' : ∀ result, ae ≠ .built result := by
        rintro result rfl
        cases hae
        exact hne _ rfl
      obtain ⟨hans, hlist⟩ := proposals_step_of_not_built (s := n.toApp) hne'
      exact ⟨hans, congrArg Lock.value hlist⟩

/-- The proposals that a run has answered, and those it lists, are those it has built. -/
theorem proposals_run (c : Config A) (es : List (Node.Event (Reth A))) :
    (run (prodStep A) (Node.start c) es).answers.filterMap Answer.proposal =
        (recorded c es).filterMap Recording.proposal ∧
      (run (prodStep A) (Node.start c) es).proposals.value =
        ((recorded c es).filterMap Recording.proposal).map Prod.snd := by
  induction es using List.reverseRecOn with
  | nil => exact ⟨rfl, rfl⟩
  | append_singleton es e ih =>
    have hl : (run (prodStep A) (Node.start c) es).Healthy := Node.healthy_run _ _ _ _ es
    obtain ⟨hans, hlist⟩ := proposals_step (e := e) hl
    rw [run_concat, recorded, trace_concat, List.filterMap_append, List.map_append]
    rw [ih.1] at hans
    rw [ih.2] at hlist
    exact ⟨hans, hlist⟩

/-! ## Rounds -/

/-- The rounds of the proposals that were built. -/
def builtRounds (rs : List (Recording A)) : List Round :=
  (rs.filterMap Recording.proposal).map fun p => p.1.round

/-- What is built is a `Propose` that was finished. -/
theorem finished_step {es : List (Node.Event (Reth A))} {finished : List Message}
    (hq : enqueued es = finished ++ n.outstanding) :
    ∃ more, enqueued (es ++ [e]) = finished ++ more ++ (n.prodStep A e).outstanding ∧
      (builtRounds (recordings A n e)).Sublist (more.filterMap Message.proposeRound) := by
  by_cases hbuilt : ∃ msg req reth payload, .built msg req reth payload ∈ recordings A n e
  · obtain ⟨msg, req, reth, payload, hmem⟩ := hbuilt
    obtain ⟨finalized, rfl, hstage, hanchor, hb⟩ := built_mem_recordings hmem
    have hrec : recordings A n (.built reth) = [.built msg req reth payload] := by
      simp only [recordings, hstage, hanchor, hb]
    refine ⟨[.propose msg], ?_, by rw [hrec]; exact .refl _⟩
    have hfront : n.outstanding = .propose msg :: n.receiver := by
      rw [App.outstanding, hstage]
      rfl
    have hout : (n.prodStep A (.built reth)).outstanding = n.receiver := by
      rcases built_step_cases n reth with ⟨_, req', finalized', _, _, hs⟩ | ⟨_, hr⟩
      · rw [hs]
        cases buildClosure A reth finalized' req' with
        | error reason => rfl
        | ok payload => rfl
      · rw [hr] at hrec
        cases hrec
    have hne : ∀ msg, Node.Event.built reth ≠ .enqueue msg := by
      intro msg h
      cases h
    rw [enqueued_concat_of_ne hne, hq, hfront, hout, List.append_assoc]
    rfl
  · obtain ⟨more, hmore⟩ := Node.outstanding_step (B := createEnginePayloadBuilder A) e hq
    refine ⟨more, hmore, ?_⟩
    have hnone : builtRounds (recordings A n e) = [] := by
      rw [builtRounds, List.map_eq_nil_iff, List.filterMap_eq_nil_iff]
      intro r hr
      cases r with
      | built msg req reth payload => exact absurd ⟨msg, req, reth, payload, hr⟩ hbuilt
      | verified msg => rfl
    rw [hnone]
    exact List.nil_sublist _

/-- With at most one `Propose` for each round, no round is built twice. -/
theorem rounds_run (c : Config A) (es : List (Node.Event (Reth A)))
    (hrounds : ((enqueued es).filterMap Message.proposeRound).Nodup) :
    (builtRounds (recorded c es)).Nodup := by
  have hinv : ∃ finished,
      enqueued es = finished ++ (run (prodStep A) (Node.start c) es).outstanding ∧
        (builtRounds (recorded c es)).Sublist (finished.filterMap Message.proposeRound) := by
    clear hrounds
    induction es using List.reverseRecOn with
    | nil => exact ⟨[], rfl, .refl _⟩
    | append_singleton es e ih =>
      obtain ⟨finished, hq, hsub⟩ := ih
      obtain ⟨more, hmore, hnew⟩ := finished_step (e := e) hq
      refine ⟨finished ++ more, by rw [run_concat]; exact hmore, ?_⟩
      rw [recorded, trace_concat, builtRounds, List.filterMap_append, List.map_append,
        List.filterMap_append]
      exact hsub.append hnew
  obtain ⟨finished, hq, hsub⟩ := hinv
  rw [hq, List.filterMap_append] at hrounds
  exact (List.nodup_append.mp hrounds).1.sublist hsub

/-! ## Attribution -/

/-- A record is that of genesis, or a recording of the run. -/
theorem attributed_run (c : Config A) (es : List (Node.Event (Reth A))) :
    ∀ d i, (run (prodStep A) (Node.start c) es).info d = some i →
      (d = Digest.EMPTY ∧ i = c.genesis.info.record) ∨
        ∃ r ∈ recorded c es, r.digest = d ∧ r.view = i.view ∧ r.proposer = i.proposer := by
  induction es using List.reverseRecOn with
  | nil => exact fun d i hi => .inl (App.info_new hi)
  | append_singleton es e ih =>
    intro d i hi
    rw [run_concat] at hi
    rw [recorded, trace_concat]
    rcases Node.info_step_cases hi with hold | hnew
    · rcases ih d i hold with hgenesis | ⟨r, hr, hattr⟩
      · exact .inl hgenesis
      · exact .inr ⟨r, List.mem_append_left _ hr, hattr⟩
    · obtain ⟨r, hr, hattr⟩ := mem_of_records hnew
      exact .inr ⟨r, List.mem_append_right _ hr, hattr⟩

end UniquenessLemmas

/-! ## Uniqueness -/

/-- The step leaves every record with the view and the proposer it has. -/
def KeepsAttribution (A : Alloy) (n : Node) (e : Node.Event (Reth A)) : Prop :=
  ∀ d i i', n.info d = some i → (n.prodStep A e).info d = some i' →
    i'.view = i.view ∧ i'.proposer = i.proposer

/-- Proposals of different rounds have different digests, the list of proposals has no
duplicates, and no record changes its view or proposer. -/
structure ProposalsUnique {A : Alloy} (c : Config A) (es : List (Node.Event (Reth A))) : Prop where
  digests : ∀ msg d msg' d',
    .proposed msg (some d) ∈ (run (prodStep A) (Node.start c) es).answers →
    .proposed msg' (some d') ∈ (run (prodStep A) (Node.start c) es).answers →
    msg.round ≠ msg'.round → d ≠ d'
  listed : (run (prodStep A) (Node.start c) es).proposals.value.Nodup
  attribution : Along (prodStep A) (KeepsAttribution A) (Node.start c) es

/-- Reth builds the block that is a function of the parent, the attributes and the
content of its pool. -/
def Reth.BuildsFrom {A : Alloy} {Pool : Type} (reth : Reth A)
    (build : B256 → PayloadAttributes → Pool → A.Block) (pool : Pool) : Prop :=
  ∀ fcs attrs block, reth.Job fcs attrs block → block = build fcs.headBlockHash attrs pool

section Unique

variable {A : Alloy} {Pool : Type}

/-- The header that reth builds for the request from its pool. -/
def requestedHeader (build : B256 → PayloadAttributes → Pool → A.Block) (pools : Reth A → Pool)
    (req : BuildPayloadRequest) (reth : Reth A) : A.Header :=
  (build req.parentHash (buildPayloadAttributes req.parentHash req.timestamp) (pools reth)).header

/-- No two builds of different rounds on one parent for one second start from pools that
give the same header. -/
def FreshBuilds (build : B256 → PayloadAttributes → Pool → A.Block) (pools : Reth A → Pool)
    (rs : List (Recording A)) : Prop :=
  ∀ msg req reth payload msg' req' reth' payload',
    .built msg req reth payload ∈ rs → .built msg' req' reth' payload' ∈ rs →
    msg.round ≠ msg'.round → req.parentHash = req'.parentHash → req.timestamp = req'.timestamp →
    requestedHeader build pools req reth ≠ requestedHeader build pools req' reth'

/-- A block that is verified is recorded under one view and proposer only, and genesis
under its own. -/
structure VerifiedOnce (g : GenesisInfo) (rs : List (Recording A)) : Prop where
  verified : ∀ msg, .verified msg ∈ rs → ∀ r ∈ rs, r.digest = msg.payload →
    r.view = msg.round.view ∧ r.proposer = msg.proposer
  genesis : ∀ r ∈ rs, r.digest = Digest.EMPTY → r.view = 0 ∧ r.proposer = g.proposer

end Unique

namespace UniquenessLemmas

variable {A : Alloy} {Pool : Type} {build : B256 → PayloadAttributes → Pool → A.Block}
  {pools : Reth A → Pool} {c : Config A} {es : List (Node.Event (Reth A))}

/-- A build of the run has the hash of the header that reth builds for the request. -/
theorem built_header
    (hreth : ∀ e ∈ es, ∀ reth, e.env = some reth →
      reth.BuildsFrom build (pools reth) ∧ reth.KeepsTimestamp ∧ reth.BuildsOnHead)
    {msg : Propose} {req : BuildPayloadRequest} {reth : Reth A} {payload : BuiltPayload}
    (h : .built msg req reth payload ∈ recorded c es) :
    payload.blockHash = A.hashSlow (requestedHeader build pools req reth) ∧
      A.parentHash (requestedHeader build pools req reth) = req.parentHash ∧
      A.timestamp (requestedHeader build pools req reth) = req.timestamp := by
  obtain ⟨es₁, e, es₂, rfl, hmem⟩ := mem_trace h
  obtain ⟨finalized, rfl, -, -, hb⟩ := built_mem_recordings hmem
  obtain ⟨hfrom, htime, hhead⟩ := hreth (.built reth) (by simp) reth rfl
  obtain ⟨block, hjob, rfl⟩ := buildClosure_ok hb
  have hblock : block.header = requestedHeader build pools req reth :=
    congrArg _ (hfrom _ _ _ hjob)
  rw [← hblock]
  exact ⟨rfl, (hhead _ _ _ hjob).2.1, htime _ _ _ hjob⟩

/-- Builds of different rounds, from requests and pools that are fresh, have different
hashes. -/
theorem blockHash_ne (hA : A.CollisionFree)
    (hreth : ∀ e ∈ es, ∀ reth, e.env = some reth →
      reth.BuildsFrom build (pools reth) ∧ reth.KeepsTimestamp ∧ reth.BuildsOnHead)
    (hfresh : FreshBuilds build pools (recorded c es))
    {msg msg' : Propose} {req req' : BuildPayloadRequest} {reth reth' : Reth A}
    {payload payload' : BuiltPayload} (h : .built msg req reth payload ∈ recorded c es)
    (h' : .built msg' req' reth' payload' ∈ recorded c es) (hround : msg.round ≠ msg'.round) :
    payload.blockHash ≠ payload'.blockHash := by
  obtain ⟨hhash, hparent, htime⟩ := built_header hreth h
  obtain ⟨hhash', hparent', htime'⟩ := built_header hreth h'
  intro heq
  have hheader : requestedHeader build pools req reth = requestedHeader build pools req' reth' :=
    hA (hhash.symm.trans (heq.trans hhash'))
  refine hfresh msg req reth payload msg' req' reth' payload' h h' hround ?_ ?_ hheader
  · rw [← hparent, ← hparent', hheader]
  · rw [← htime, ← htime', hheader]

theorem mem_proposals {rs : List (Recording A)} {msg : Propose} {d : Digest} :
    (msg, d) ∈ rs.filterMap Recording.proposal ↔
      ∃ req reth payload, .built msg req reth payload ∈ rs ∧ d = ⟨payload.blockHash⟩ := by
  rw [List.mem_filterMap]
  constructor
  · rintro ⟨r, hr, hp⟩
    cases r with
    | built msg' req reth payload =>
      cases hp
      exact ⟨req, reth, payload, hr, rfl⟩
    | verified msg' => cases hp
  · rintro ⟨req, reth, payload, hmem, rfl⟩
    exact ⟨_, hmem, rfl⟩

/-- A proposal is answered if and only if it is built. -/
theorem proposed_mem_answers {msg : Propose} {d : Digest} :
    .proposed msg (some d) ∈ (run (prodStep A) (Node.start c) es).answers ↔
      (msg, d) ∈ (recorded c es).filterMap Recording.proposal := by
  rw [← (proposals_run c es).1, List.mem_filterMap]
  constructor
  · intro h
    exact ⟨_, h, rfl⟩
  · rintro ⟨answer, hmem, hp⟩
    unfold Answer.proposal at hp
    split at hp
    · cases hp
      exact hmem
    · cases hp

/-- While records keep their attribution, each recording is attributed as it was written. -/
theorem attribution_kept (hkeep : Along (prodStep A) (KeepsAttribution A) (Node.start c) es) :
    (∀ r ∈ recorded c es, ∃ i, (run (prodStep A) (Node.start c) es).info r.digest = some i ∧
      i.view = r.view ∧ i.proposer = r.proposer) ∧
    ∃ i, (run (prodStep A) (Node.start c) es).info Digest.EMPTY = some i ∧
      i.view = 0 ∧ i.proposer = c.genesis.info.proposer := by
  induction es using List.reverseRecOn with
  | nil =>
    exact ⟨fun r hr => absurd hr List.not_mem_nil, _, App.info_new_empty _ _ _, rfl, rfl⟩
  | append_singleton es e ih =>
    obtain ⟨hbefore, hstep, -⟩ := along_append.mp hkeep
    obtain ⟨hold, hgenesis⟩ := ih hbefore
    -- what was attributed before the step still is
    have hstill : ∀ {d view proposer}, (∃ i, (run (prodStep A) (Node.start c) es).info d = some i ∧
        i.view = view ∧ i.proposer = proposer) →
        ∃ i, (run (prodStep A) (Node.start c) (es ++ [e])).info d = some i ∧
          i.view = view ∧ i.proposer = proposer := by
      rintro d _ _ ⟨i, hi, rfl, rfl⟩
      rw [run_concat]
      obtain ⟨i', hi', -⟩ := Node.info_step_some (B := createEnginePayloadBuilder A) e hi
      obtain ⟨hview, hproposer⟩ := hstep d i i' hi hi'
      exact ⟨i', hi', hview, hproposer⟩
    refine ⟨fun r hr => ?_, hstill hgenesis⟩
    rw [recorded, trace_concat] at hr
    rcases List.mem_append.mp hr with hr | hr
    · exact hstill (hold r hr)
    · obtain ⟨i, hrec, hattr⟩ := records_of_mem hr
      rw [run_concat]
      exact ⟨i, Node.info_step_of_records (Node.healthy_run _ _ _ _ es).blockInfo hrec, hattr⟩

/-- While records keep their attribution, every digest is recorded under one. -/
theorem verifiedOnce_of_kept (hkeep : Along (prodStep A) (KeepsAttribution A) (Node.start c) es) :
    VerifiedOnce c.genesis.info (recorded c es) := by
  obtain ⟨hrecorded, iG, hiG, hviewG, hproposerG⟩ := attribution_kept hkeep
  refine ⟨fun msg hmsg r hr heq => ?_, fun r hr heq => ?_⟩
  · obtain ⟨i, hi, hview, hproposer⟩ := hrecorded r hr
    obtain ⟨i', hi', hview', hproposer'⟩ := hrecorded _ hmsg
    rw [heq] at hi
    cases hi.symm.trans hi'
    exact ⟨hview.symm.trans hview', hproposer.symm.trans hproposer'⟩
  · obtain ⟨i, hi, hview, hproposer⟩ := hrecorded r hr
    rw [heq] at hi
    cases hi.symm.trans hiG
    exact ⟨hview.symm.trans hviewG, hproposer.symm.trans hproposerG⟩

/-- Two recordings of one digest, the second by a later step, have one attribution: two
builds have different rounds, and so different hashes. -/
theorem recordings_agree (hA : A.CollisionFree)
    (hreth : ∀ e ∈ es, ∀ reth, e.env = some reth →
      reth.BuildsFrom build (pools reth) ∧ reth.KeepsTimestamp ∧ reth.BuildsOnHead)
    (hrounds : (builtRounds (recorded c es)).Nodup)
    (hfresh : FreshBuilds build pools (recorded c es))
    (honce : VerifiedOnce c.genesis.info (recorded c es)) {rs rs' : List (Recording A)}
    (hrs : rs ++ rs' <+: recorded c es) {r r' : Recording A} (hr : r ∈ rs) (hr' : r' ∈ rs')
    (heq : r.digest = r'.digest) : r'.view = r.view ∧ r'.proposer = r.proposer := by
  have hmem : r ∈ recorded c es := hrs.subset (List.mem_append_left _ hr)
  have hmem' : r' ∈ recorded c es := hrs.subset (List.mem_append_right _ hr')
  cases r' with
  | verified msg' =>
    obtain ⟨hview, hproposer⟩ := honce.verified msg' hmem' r hmem heq
    exact ⟨hview.symm, hproposer.symm⟩
  | built msg' req' reth' payload' =>
    cases r with
    | verified msg => exact honce.verified msg hmem _ hmem' heq.symm
    | built msg req reth payload =>
      refine absurd (congrArg Digest.get heq) (blockHash_ne hA hreth hfresh hmem hmem' ?_)
      have hnodup : (builtRounds (rs ++ rs')).Nodup :=
        hrounds.sublist ((hrs.sublist.filterMap _).map _)
      rw [builtRounds, List.filterMap_append, List.map_append] at hnodup
      refine (List.nodup_append.mp hnodup).2.2 _ ?_ _ ?_
      · exact List.mem_map.mpr ⟨(msg, _), List.mem_filterMap.mpr ⟨_, hr, rfl⟩, rfl⟩
      · exact List.mem_map.mpr ⟨(msg', _), List.mem_filterMap.mpr ⟨_, hr', rfl⟩, rfl⟩

theorem attribution_of_fresh (hA : A.CollisionFree)
    (hreth : ∀ e ∈ es, ∀ reth, e.env = some reth →
      reth.BuildsFrom build (pools reth) ∧ reth.KeepsTimestamp ∧ reth.BuildsOnHead)
    (hrounds : (builtRounds (recorded c es)).Nodup)
    (hfresh : FreshBuilds build pools (recorded c es))
    (honce : VerifiedOnce c.genesis.info (recorded c es)) :
    Along (prodStep A) (KeepsAttribution A) (Node.start c) es := by
  refine along_of_splits fun es₁ e es₂ hes d i i' hi hi' => ?_
  have hrs : recorded c es₁ ++ recordings A (run (prodStep A) (Node.start c) es₁) e <+:
      recorded c es := by
    rw [hes, recorded, recorded, trace_append, trace, ← List.append_assoc]
    exact List.prefix_append _ _
  rcases Node.info_step_cases hi' with hold | hnew
  · cases hi.symm.trans hold
    exact ⟨rfl, rfl⟩
  · obtain ⟨r', hr', hd', hview', hproposer'⟩ := mem_of_records hnew
    rw [← hview', ← hproposer']
    rcases attributed_run c es₁ d i hi with ⟨hd, rfl⟩ | ⟨r, hr, hd, hview, hproposer⟩
    · exact honce.genesis r' (hrs.subset (List.mem_append_right _ hr')) (hd'.trans hd)
    · rw [← hview, ← hproposer]
      exact recordings_agree hA hreth hrounds hfresh honce hrs hr hr' (hd.trans hd'.symm)

end UniquenessLemmas

open UniquenessLemmas

/-- For every run of a node with the production builder in which the engine sends at most one
`Propose` for each round, over a reth whose blocks are a function of the parent, the
attributes and the pool: the proposals are unique exactly if no two rounds are built on one
parent for one second from pools that give the same header, and no block is verified
under another view or proposer than it is recorded under. -/
theorem proposals_unique_iff {A : Alloy} (hA : A.CollisionFree) {Pool : Type}
    (build : B256 → PayloadAttributes → Pool → A.Block) (pools : Reth A → Pool) (c : Config A)
    (es : List (Node.Event (Reth A)))
    (hreth : ∀ e ∈ es, ∀ reth, e.env = some reth →
      reth.BuildsFrom build (pools reth) ∧ reth.KeepsTimestamp ∧ reth.BuildsOnHead)
    (hpropose : ((enqueued es).filterMap Message.proposeRound).Nodup) :
    ProposalsUnique c es ↔
      FreshBuilds build pools (recorded c es) ∧ VerifiedOnce c.genesis.info (recorded c es) := by
  have hrounds := rounds_run c es hpropose
  constructor
  · intro hunique
    refine ⟨?_, verifiedOnce_of_kept hunique.attribution⟩
    intro msg req reth payload msg' req' reth' payload' h h' hround _ _ hheader
    refine hunique.digests msg ⟨payload.blockHash⟩ msg' ⟨payload'.blockHash⟩ ?_ ?_ hround ?_
    · exact proposed_mem_answers.mpr (mem_proposals.mpr ⟨req, reth, payload, h, rfl⟩)
    · exact proposed_mem_answers.mpr (mem_proposals.mpr ⟨req', reth', payload', h', rfl⟩)
    · rw [(built_header hreth h).1, (built_header hreth h').1, hheader]
  · rintro ⟨hfresh, honce⟩
    have hdigests : ∀ p ∈ (recorded c es).filterMap Recording.proposal,
        ∀ p' ∈ (recorded c es).filterMap Recording.proposal,
        p.1.round ≠ p'.1.round → p.2 ≠ p'.2 := by
      rintro ⟨msg, d⟩ hp ⟨msg', d'⟩ hp' hround heq
      obtain ⟨req, reth, payload, hmem, rfl⟩ := mem_proposals.mp hp
      obtain ⟨req', reth', payload', hmem', rfl⟩ := mem_proposals.mp hp'
      exact blockHash_ne hA hreth hfresh hmem hmem' hround (congrArg Digest.get heq)
    refine ⟨?_, ?_, attribution_of_fresh hA hreth hrounds hfresh honce⟩
    · intro msg d msg' d' h h' hround
      exact hdigests _ (proposed_mem_answers.mp h) _ (proposed_mem_answers.mp h') hround
    · rw [(proposals_run c es).2, List.Nodup, List.pairwise_map]
      rw [builtRounds, List.Nodup, List.pairwise_map] at hrounds
      exact hrounds.imp_of_mem fun hp hp' hround => hdigests _ hp _ hp' hround

/-- Block `one` is proposed in view 1, and `two` on it in view 2. -/
def freshRun : List (Node.Event (Reth sampleAlloy)) :=
  [.enqueue (.propose (samplePropose .EMPTY 1)), .recv 11000, .buildFcu, .built (sampleReth .one),
    .enqueue (.propose (samplePropose SampleHeader.one.digest 2)), .recv 12000, .buildFcu,
    .built (sampleReth .two)]

/-- View 1 is nullified, and view 2 proposes on genesis again, within the second. -/
def nullifiedRun : List (Node.Event (Reth sampleAlloy)) :=
  [.enqueue (.propose (samplePropose .EMPTY 1)), .recv 11000, .buildFcu, .built (sampleReth .one),
    .enqueue (.propose (samplePropose .EMPTY 2)), .recv 11500, .buildFcu, .built (sampleReth .one)]

namespace UniquenessLemmas

/-- The block of the small chain on a parent, whatever is in the pool. -/
def buildOn (parentHash : B256) (_ : PayloadAttributes) (_ : Unit) : sampleAlloy.Block :=
  if parentHash = SampleHeader.genesis.hash then ⟨SampleHeader.one, ()⟩ else ⟨SampleHeader.two, ()⟩

theorem sampleReth_buildsFrom {block : SampleHeader} (hblock : block = .one ∨ block = .two) :
    (sampleReth block).BuildsFrom buildOn () ∧ (sampleReth block).KeepsTimestamp ∧
      (sampleReth block).BuildsOnHead := by
  refine ⟨?_, sampleReth_keepsTimestamp block, sampleReth_buildsOnHead block⟩
  rintro fcs attrs ⟨header, body⟩ hjob
  obtain ⟨hheader, -, hhead, -⟩ := sampleReth_job hjob
  cases hheader
  rw [hhead]
  rcases hblock with rfl | rfl
  · rfl
  · rfl

/-- Reth in a run that asks it for `one` and `two` only. -/
theorem reth_of_run {es : List (Node.Event (Reth sampleAlloy))}
    (hes : ∀ e ∈ es, ∀ reth, e.env = some reth → reth = sampleReth .one ∨ reth = sampleReth .two) :
    ∀ e ∈ es, ∀ reth, e.env = some reth →
      reth.BuildsFrom buildOn () ∧ reth.KeepsTimestamp ∧ reth.BuildsOnHead := by
  intro e he reth hr
  rcases hes e he reth hr with rfl | rfl
  · exact sampleReth_buildsFrom (.inl rfl)
  · exact sampleReth_buildsFrom (.inr rfl)

theorem freshRun_reth : ∀ e ∈ freshRun, ∀ reth, e.env = some reth →
    reth = sampleReth .one ∨ reth = sampleReth .two := by
  simp [freshRun, Node.Event.env, eq_comm]

theorem nullifiedRun_reth : ∀ e ∈ nullifiedRun, ∀ reth, e.env = some reth →
    reth = sampleReth .one ∨ reth = sampleReth .two := by
  simp [nullifiedRun, Node.Event.env, eq_comm]

/-- What the first run records: two blocks, on two parents. -/
theorem recorded_freshRun :
    ∃ req req', req.parentHash ≠ req'.parentHash ∧ recorded sampleConfig freshRun =
      [.built (samplePropose .EMPTY 1) req (sampleReth .one)
          (builtPayload sampleAlloy ⟨.one, ()⟩),
        .built (samplePropose SampleHeader.one.digest 2) req' (sampleReth .two)
          (builtPayload sampleAlloy ⟨.two, ()⟩)] :=
  ⟨⟨SampleHeader.genesis.hash, 0, 0, .EMPTY, 0, 1, B256.repeatByte 7, 11, 11000⟩,
    ⟨SampleHeader.one.hash, 1, 1, SampleHeader.one.digest, 0, 2, B256.repeatByte 7, 12, 12000⟩,
    by decide, rfl⟩

theorem freshRun_fresh : FreshBuilds buildOn (fun _ => ()) (recorded sampleConfig freshRun) := by
  obtain ⟨req₁, req₂, hne, hrec⟩ := recorded_freshRun
  rw [hrec]
  intro msg req reth payload msg' req' reth' payload' h h' hround hparent
  simp only [List.mem_cons, List.not_mem_nil, or_false, Recording.built.injEq] at h h'
  rcases h with ⟨rfl, rfl, -⟩ | ⟨rfl, rfl, -⟩
  · rcases h' with ⟨rfl, -⟩ | ⟨-, rfl, -⟩
    · exact absurd rfl hround
    · exact absurd hparent hne
  · rcases h' with ⟨-, rfl, -⟩ | ⟨rfl, -⟩
    · exact absurd hparent.symm hne
    · exact absurd rfl hround

theorem freshRun_verifiedOnce :
    VerifiedOnce sampleConfig.genesis.info (recorded sampleConfig freshRun) := by
  obtain ⟨_, _, -, hrec⟩ := recorded_freshRun
  rw [hrec]
  refine ⟨fun msg hmsg => ?_, fun r hr heq => ?_⟩
  · simp at hmsg
  · simp only [List.mem_cons, List.not_mem_nil, or_false] at hr
    rcases hr with rfl | rfl
    · exact absurd (congrArg Digest.get heq) (sampleAlloy_nonZero SampleHeader.one)
    · exact absurd (congrArg Digest.get heq) (sampleAlloy_nonZero SampleHeader.two)

end UniquenessLemmas

/-- Two views on two parents get two digests. -/
theorem fresh_proposals_unique :
    ((enqueued freshRun).filterMap Message.proposeRound).Nodup ∧
      (run (prodStep sampleAlloy) (Node.start sampleConfig) freshRun).proposals.value =
        [SampleHeader.one.digest, SampleHeader.two.digest] ∧
      ProposalsUnique sampleConfig freshRun := by
  have hnodup : ((enqueued freshRun).filterMap Message.proposeRound).Nodup := by decide
  exact ⟨hnodup, by decide, (proposals_unique_iff sampleAlloy_collisionFree buildOn (fun _ => ())
    sampleConfig freshRun (reth_of_run freshRun_reth) hnodup).mpr
    ⟨freshRun_fresh, freshRun_verifiedOnce⟩⟩

/-- Views 1 and 2 on genesis, half a second apart: both are answered with the digest of
`one`, it is listed twice, and its record goes over to view 2. -/
theorem same_second_same_digest :
    sampleAlloy.CollisionFree ∧
      (∀ e ∈ nullifiedRun, ∀ reth, e.env = some reth →
        reth.BuildsFrom buildOn () ∧ reth.KeepsTimestamp ∧ reth.BuildsOnHead) ∧
      ((enqueued nullifiedRun).filterMap Message.proposeRound).Nodup ∧
      (run (prodStep sampleAlloy) (Node.start sampleConfig) nullifiedRun).answers =
        [.proposed (samplePropose .EMPTY 1) (some SampleHeader.one.digest),
          .proposed (samplePropose .EMPTY 2) (some SampleHeader.one.digest)] ∧
      (run (prodStep sampleAlloy) (Node.start sampleConfig) nullifiedRun).proposals.value =
        [SampleHeader.one.digest, SampleHeader.one.digest] ∧
      ((run (prodStep sampleAlloy) (Node.start sampleConfig) nullifiedRun).info
        SampleHeader.one.digest).map BlockInfo.view = some 2 ∧
      ¬ ProposalsUnique sampleConfig nullifiedRun := by
  have hlist : (run (prodStep sampleAlloy) (Node.start sampleConfig) nullifiedRun).proposals.value =
      [SampleHeader.one.digest, SampleHeader.one.digest] := by decide
  refine ⟨sampleAlloy_collisionFree, reth_of_run nullifiedRun_reth, by decide, by decide, hlist,
    by decide, fun hunique => ?_⟩
  have hnodup := hunique.listed
  rw [hlist] at hnodup
  exact absurd hnodup (by decide)

end Allegro
