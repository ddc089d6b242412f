import Allegro.Node

/-!
# What a node says to its execution layer

`crates/node/src/builder.rs` and `crates/node/src/finalizer.rs`: the calls that the
build closure, the validate closure and the finalizer make on reth's engine API, in
the order in which a run makes them. `buildClosure` and `validateClosure` say what
these calls lead to; here they are what is looked at.

`EngineView` is what reth has been told and has answered so far, as a client of the
engine API may rely on it: the blocks that it has taken in, and the payload jobs that
it has started. A forkchoice update may name only blocks that reth has taken in, and a
payload can be resolved only for a job that it has started.

The source expects the finalizer to name blocks that reth has never seen, and reth to
answer that it is syncing. It does not come to that: a block that was not taken in has
no record, and the finalizer skips it.

Results:
1. `buildClosure_ok_imported`, `validateClosure_valid_imported`: a block that a closure
   reports was taken in by reth during the call.
2. `known_step`: every hash that a node holds is that of a block that its reth has
   taken in.
3. `call_logged`, `logged_call`: the forkchoice updates that a step makes are those that
   the log of the node has, a retried one once.
4. `engine_calls_permitted`: in every run, every call is permitted.
-/

namespace Allegro

open Run

/-! ## The calls -/

/-- What passes between a node and its execution layer. A call of `new_payload` comes with
its answer. A forkchoice update is called for and answered at different steps. -/
inductive EngineMessage (A : Alloy)
  | forkchoice (state : ForkchoiceState) (attrs : Option PayloadAttributes)
  | started (id : PayloadId)
  | resolve (id : PayloadId)
  | imported (block : A.Block) (answer : Except String PayloadStatusEnum)

section Calls

variable {A : Alloy}

/-- The calls of the retry loop. An attempt that starts no job is followed by the next. -/
def startMessages (reth : Reth A) (fcs : ForkchoiceState) (attrs : PayloadAttributes) :
    List Nat → List (EngineMessage A)
  | [] => []
  | attempt :: rest =>
    .forkchoice fcs (some attrs) ::
      match reth.forkChoiceUpdated attempt fcs (some attrs) with
      | .ok fcu =>
        match fcu.payloadId with
        | some id => [.started id]
        | none => startMessages reth fcs attrs rest
      | .error _ => startMessages reth fcs attrs rest

/-- The job is resolved and its block imported. -/
def resolveMessages (reth : Reth A) (id : PayloadId) : List (EngineMessage A) :=
  .resolve id ::
    match reth.resolveKind id with
    | some (.ok block) => [.imported block (reth.newPayload block)]
    | _ => []

/-- The calls of the build closure. -/
def buildMessages (reth : Reth A) (finalized : Finalized) (req : BuildPayloadRequest) :
    List (EngineMessage A) :=
  let fcs := buildForkchoice finalized req
  let attrs := (buildPayloadAttributesFromRequest req).2
  startMessages reth fcs attrs (List.range 5) ++
    match startPayload reth fcs attrs (List.range 5) "" with
    | .ok id => resolveMessages reth id
    | .error _ => []

/-- The calls of the validate closure. -/
def validateMessages (reth : Reth A) (req : ValidateBlockRequest) : List (EngineMessage A) :=
  match A.decode req.blockBytes with
  | .ok (block, _) => [.imported block (reth.newPayload block)]
  | .error _ => []

variable (A) in
/-- The calls at a step of a node. The first forkchoice update of a build is made when
the tracker is read; the rest of the build follows before it ends. -/
def Node.messages (n : Node) : Node.Event (Reth A) → List (EngineMessage A)
  | .buildFcu =>
    match n.stage, n.anchor with
    | .building _ req, none =>
      [.forkchoice (buildForkchoice n.tracker.finalized req)
        (some (buildPayloadAttributesFromRequest req).2)]
    | _, _ => []
  | .built reth =>
    match n.stage, n.anchor with
    | .building _ req, some finalized => (buildMessages reth finalized req).tail
    | _, _ => []
  | .validated reth =>
    match n.stage with
    | .validating _ bytes parentHash => validateMessages reth ⟨bytes, parentHash⟩
    | _ => []
  | .finalizerRecv =>
    match n.finalizer, n.sink.next with
    | .idle, some (d, _) =>
      match n.blockInfo.read.bind fun map => map.lookup d with
      | some info => [.forkchoice (finalizeForkchoice info.hash) none]
      | none => []
    | _, _ => []
  | _ => []

end Calls

/-! ## The protocol -/

/-- What a client of the engine API knows of reth: the blocks that reth has taken in,
those among them that it has found valid, and the jobs that it has started. -/
structure EngineView where
  known : Finset B256
  valid : Finset B256
  jobs : Finset PayloadId

namespace EngineView

variable {A : Alloy}

/-- Reth at its start, with the genesis block of the chain. -/
def start (g : Genesis A) : EngineView where
  known := {A.hashSlow g.header}
  valid := {A.hashSlow g.header}
  jobs := ∅

def next (v : EngineView) : EngineMessage A → EngineView
  | .started id => { v with jobs := insert id v.jobs }
  | .imported block (.ok .valid) =>
    { v with
      known := insert (A.hashSlow block.header) v.known
      valid := insert (A.hashSlow block.header) v.valid }
  | .imported block (.ok .accepted) =>
    { v with known := insert (A.hashSlow block.header) v.known }
  | _ => v

/-- Safe and finalized are blocks that reth has taken in, and so is the head, except for
the zero hash in a build on a parent that the node has not recorded. -/
structure Names (v : EngineView) (n : Node) (fcs : ForkchoiceState)
    (attrs : Option PayloadAttributes) : Prop where
  head : fcs.headBlockHash ∈ v.known ∨
    fcs.headBlockHash = B256.ZERO ∧ attrs.isSome ∧
      ∃ msg req, n.stage = .building msg req ∧ n.info msg.parent.2 = none
  safe : fcs.safeBlockHash ∈ v.known
  finalized : fcs.finalizedBlockHash ∈ v.known

/-- The calls that the node may make next. -/
def Permits (n : Node) (v : EngineView) : EngineMessage A → Prop
  | .forkchoice fcs attrs => v.Names n fcs attrs
  | .resolve id => id ∈ v.jobs
  | _ => True

end EngineView

section Node

variable (A : Alloy)

/-- A node and its engine take a step. -/
def engineStep (p : Node × EngineView) (e : Node.Event (Reth A)) : Node × EngineView :=
  (p.1.prodStep A e, run EngineView.next p.2 (p.1.messages A e))

/-- Every call at the step is permitted when it is made. -/
def CallsPermitted (p : Node × EngineView) (e : Node.Event (Reth A)) : Prop :=
  Along EngineView.next (EngineView.Permits p.1) p.2 (p.1.messages A e)

end Node

/-- The forkchoice update that a message calls for, and whether it is to start a build. -/
def EngineMessage.call {A : Alloy} : EngineMessage A → Option (ForkchoiceState × Bool)
  | .forkchoice state attrs => some (state, attrs.isSome)
  | _ => none

/-- The forkchoice update that an entry of the log says. -/
def Output.call : Output → Option (ForkchoiceState × Bool)
  | .buildFcu _ state => some (state, true)
  | .finalizeFcu _ state => some (state, false)
  | _ => none

/-- The build that has read the tracker is under way, and its forkchoice update logged. -/
def Node.BuildLogged (n : Node) : Prop :=
  ∀ finalized, n.anchor = some finalized →
    ∃ msg req, n.stage = .building msg req ∧ .buildFcu msg (buildForkchoice finalized req) ∈ n.log

namespace EngineApiLemmas

variable {A : Alloy} {reth : Reth A} {n : Node} {v : EngineView}

/-! ## The view grows -/

theorem known_next (v : EngineView) (m : EngineMessage A) : v.known ⊆ (v.next m).known := by
  unfold EngineView.next
  split
  · exact Finset.Subset.refl _
  · exact Finset.subset_insert _ _
  · exact Finset.subset_insert _ _
  · exact Finset.Subset.refl _

theorem known_run (v : EngineView) (ms : List (EngineMessage A)) :
    v.known ⊆ (run EngineView.next v ms).known :=
  run_invariant (P := fun v' => v.known ⊆ v'.known)
    (fun v' m h => h.trans (known_next v' m)) (Finset.Subset.refl _) ms

theorem valid_next (v : EngineView) (m : EngineMessage A) : v.valid ⊆ (v.next m).valid := by
  unfold EngineView.next
  split
  · exact Finset.Subset.refl _
  · exact Finset.subset_insert _ _
  · exact Finset.Subset.refl _
  · exact Finset.Subset.refl _

theorem valid_run (v : EngineView) (ms : List (EngineMessage A)) :
    v.valid ⊆ (run EngineView.next v ms).valid :=
  run_invariant (P := fun v' => v.valid ⊆ v'.valid)
    (fun v' m h => h.trans (valid_next v' m)) (Finset.Subset.refl _) ms

theorem mem_known_of_imported {block : A.Block} {status : PayloadStatusEnum}
    (hstatus : status = .valid ∨ status = .accepted) {ms : List (EngineMessage A)}
    (hmem : .imported block (.ok status) ∈ ms) :
    A.hashSlow block.header ∈ (run EngineView.next v ms).known := by
  obtain ⟨ms₁, ms₂, rfl⟩ := List.append_of_mem hmem
  rw [run_append, run_cons]
  refine known_run _ ms₂ ?_
  rcases hstatus with rfl | rfl
  · exact Finset.mem_insert_self _ _
  · exact Finset.mem_insert_self _ _

theorem mem_valid_of_imported {block : A.Block} {ms : List (EngineMessage A)}
    (hmem : .imported block (.ok .valid) ∈ ms) :
    A.hashSlow block.header ∈ (run EngineView.next v ms).valid := by
  obtain ⟨ms₁, ms₂, rfl⟩ := List.append_of_mem hmem
  rw [run_append, run_cons]
  exact valid_run _ ms₂ (Finset.mem_insert_self _ _)

/-! ## The build closure -/

section Build

variable {fcs : ForkchoiceState} {attrs : PayloadAttributes}

theorem along_startMessages (h : v.Names n fcs (some attrs)) (attempts : List Nat) :
    Along EngineView.next (EngineView.Permits n) v (startMessages reth fcs attrs attempts) := by
  induction attempts with
  | nil => trivial
  | cons attempt rest ih =>
    refine ⟨h, ?_⟩
    split
    · split
      · exact ⟨trivial, trivial⟩
      · exact ih
    · exact ih

/-- The job that the retry loop ends with was started. -/
theorem started_of_startPayload {attempts : List Nat} {lastErr : String} {id : PayloadId}
    (h : startPayload reth fcs attrs attempts lastErr = .ok id) :
    id ∈ (run EngineView.next v (startMessages reth fcs attrs attempts)).jobs := by
  induction attempts generalizing lastErr with
  | nil => cases h
  | cons attempt rest ih =>
    rw [startPayload] at h
    rw [startMessages, run_cons]
    cases hf : reth.forkChoiceUpdated attempt fcs (some attrs) with
    | error e =>
      rw [hf] at h
      exact ih h
    | ok fcu =>
      rw [hf] at h
      cases hid : fcu.payloadId with
      | none =>
        simp only [hid] at h ⊢
        exact ih h
      | some id' =>
        simp only [hid] at h ⊢
        cases h
        exact Finset.mem_insert_self _ _

variable {finalized : Finalized} {req : BuildPayloadRequest}

theorem along_buildMessages (reth : Reth A)
    (h : v.Names n (buildForkchoice finalized req)
      (some (buildPayloadAttributesFromRequest req).2)) :
    Along EngineView.next (EngineView.Permits n) v (buildMessages reth finalized req) := by
  refine along_append.mpr ⟨along_startMessages h _, ?_⟩
  split
  · next id hid =>
    refine ⟨started_of_startPayload hid, ?_⟩
    split
    · exact ⟨trivial, trivial⟩
    · trivial
  · trivial

/-- The first call of a build is its forkchoice update. -/
theorem buildMessages_cons (reth : Reth A) (finalized : Finalized) (req : BuildPayloadRequest) :
    buildMessages reth finalized req =
      .forkchoice (buildForkchoice finalized req)
          (some (buildPayloadAttributesFromRequest req).2) ::
        (buildMessages reth finalized req).tail := rfl

theorem run_buildMessages_tail (v : EngineView) :
    run EngineView.next v (buildMessages reth finalized req).tail =
      run EngineView.next v (buildMessages reth finalized req) := by
  conv_rhs => rw [buildMessages_cons, run_cons]
  rfl

/-- A block that the build closure reports was built for the request and taken in during
the call. -/
theorem buildClosure_ok_imported {payload : BuiltPayload}
    (h : buildClosure A reth finalized req = .ok payload) :
    ∃ block status, reth.Job (buildForkchoice finalized req)
        (buildPayloadAttributes req.parentHash req.timestamp) block ∧
      reth.newPayload block = .ok status ∧ (status = .valid ∨ status = .accepted) ∧
      .imported block (.ok status) ∈ buildMessages reth finalized req ∧
      payload = builtPayload A block := by
  simp only [buildClosure] at h
  split at h
  · cases h
  · next id hid =>
    obtain ⟨attempt, fcu, hfcu, hstarted⟩ := startPayload_ok hid
    split at h
    · cases h
    · cases h
    · next block hres =>
      have hjob : reth.Job (buildForkchoice finalized req)
          (buildPayloadAttributes req.parentHash req.timestamp) block :=
        ⟨attempt, fcu, id, hfcu, hstarted, hres⟩
      have hmem : .imported block (reth.newPayload block) ∈ buildMessages reth finalized req := by
        refine List.mem_append_right _ ?_
        simp only [hid, resolveMessages, hres]
        exact List.mem_cons_of_mem _ (List.mem_singleton.mpr rfl)
      split at h
      · cases h
      · next hnew =>
        cases h
        exact ⟨block, .valid, hjob, hnew, .inl rfl, hnew ▸ hmem, rfl⟩
      · next hnew =>
        cases h
        exact ⟨block, .accepted, hjob, hnew, .inr rfl, hnew ▸ hmem, rfl⟩
      · cases h

end Build

/-! ## The validate closure -/

theorem along_validateMessages (n : Node) (v : EngineView) (req : ValidateBlockRequest) :
    Along EngineView.next (EngineView.Permits n) v (validateMessages reth req) := by
  unfold validateMessages
  split
  · exact ⟨trivial, trivial⟩
  · trivial

/-- A block that the validate closure reports as valid was found so during the call. -/
theorem validateClosure_valid_imported {req : ValidateBlockRequest} {m : BlockMeta}
    (h : validateClosure A reth req = .ok (.valid m)) :
    ∃ block, .imported block (.ok .valid) ∈ validateMessages reth req ∧
      m = blockMeta A block.header := by
  obtain ⟨block, rest, hdec, hnew, rfl⟩ := validateClosure_valid.mp h
  refine ⟨block, ?_, rfl⟩
  simp only [validateMessages, hdec, hnew]
  exact List.mem_singleton.mpr rfl

/-! ## The node -/

section Node

variable {e : Node.Event (Reth A)}

/-- The engine side of a node keeps the anchor or gives it up. -/
theorem anchor_appStep {f : Finalized} (e : Node.Event (Reth A))
    (h : (n.appStep (createEnginePayloadBuilder A) e).anchor = some f) : n.anchor = some f := by
  unfold Node.appStep at h
  split at h
  · exact h
  · split at h
    · cases h
    · exact h

theorem anchor_step_cases {f : Finalized} (h : (n.prodStep A e).anchor = some f) :
    n.anchor = some f ∨ (f = n.tracker.finalized ∧ e = .buildFcu) := by
  cases e with
  | buildFcu =>
    simp only [Node.step] at h
    split at h
    · exact .inr ⟨(Option.some.inj h).symm, rfl⟩
    · exact .inl h
  | report activity =>
    refine .inl (anchor_appStep (A := A) (.report activity) ?_)
    simp only [Node.step, Node.forward] at h
    split at h
    · exact h
    · split at h
      · exact h
      · exact h
  | finalizerRecv =>
    simp only [Node.step, Node.finalizeStart] at h
    split at h
    · split at h
      · exact .inl h
      · split at h
        · exact .inl h
        · exact .inl h
    · exact .inl h
  | finalizerAnswer result =>
    simp only [Node.step, Node.finalizeFinish] at h
    split at h
    · split at h
      · split at h
        · exact .inl h
        · exact .inl h
      · exact .inl h
    · exact .inl h
  | enqueue | recv | built | validated | blockMessage | blockChannelError | broadcast =>
    exact .inl (anchor_appStep _ h)

/-- Every hash that the node holds is one of `known`. -/
structure HashesIn (known : Finset B256) (n : Node) : Prop where
  records : ∀ d i, n.info d = some i → i.hash ∈ known
  tracker : n.tracker.finalized.1 ∈ known
  anchor : ∀ f, n.anchor = some f → f.1 ∈ known
  submitting : ∀ d hash number, n.finalizer = .submitting d hash number → hash ∈ known

theorem hashesIn_start (c : Config A) : HashesIn {A.hashSlow c.genesis.header} (Node.start c) where
  records := by
    intro d i hi
    rw [(App.info_new hi).2]
    exact Finset.mem_singleton_self _
  tracker := Finset.mem_singleton_self _
  anchor := fun _ h => (nomatch h)
  submitting := fun _ _ _ h => (nomatch h)

/-- New hashes come from the records that a step writes only. -/
theorem HashesIn.step {known known' : Finset B256} (h : HashesIn known n)
    (hgrows : known ⊆ known')
    (hrec : ∀ d i, Node.Records (createEnginePayloadBuilder A) n e d i → i.hash ∈ known') :
    HashesIn known' (n.prodStep A e) where
  records := by
    intro d i hi
    rcases Node.info_step_cases hi with hold | hnew
    · exact hgrows (h.records d i hold)
    · exact hrec d i hnew
  tracker := by
    cases Node.moves_step (B := createEnginePayloadBuilder A) n e with
    | finalized hm _ ht =>
      rw [ht]
      exact hgrows (h.submitting _ _ _ hm)
    | quiet _ ht | buildFcu _ _ ht | forwarded _ _ ht | dropped _ _ ht | poisoned _ _ _ ht
    | notFound _ _ _ ht | submitted _ _ _ ht | failed _ _ ht =>
      rw [ht]
      exact hgrows h.tracker
  anchor := by
    intro f hf
    rcases anchor_step_cases hf with hold | ⟨rfl, -⟩
    · exact hgrows (h.anchor f hold)
    · exact hgrows h.tracker
  submitting := by
    intro d hash number hsub
    cases Node.moves_step (B := createEnginePayloadBuilder A) n e with
    | submitted _ _ hi _ _ hf =>
      rw [hf] at hsub
      cases hsub
      exact hgrows (h.records _ _ hi)
    | quiet _ _ _ hf | buildFcu _ _ _ _ hf | forwarded _ _ _ _ hf | dropped _ _ _ _ hf =>
      rw [hf] at hsub
      exact hgrows (h.submitting d hash number hsub)
    | poisoned _ _ _ _ _ hf | notFound _ _ _ _ _ hf | finalized _ _ _ _ hf | failed _ _ _ _ hf =>
      rw [hf] at hsub
      cases hsub

/-- Reth has taken in whatever block the node knows by its hash. -/
structure Known (n : Node) (v : EngineView) : Prop where
  hashes : HashesIn v.known n
  request : n.RequestCurrent

/-- A forkchoice update of a build names what reth has taken in. -/
theorem Known.names (h : Known n v) {msg : Propose} {req : BuildPayloadRequest}
    {finalized : Finalized} (hstage : n.stage = .building msg req)
    (hfinalized : finalized.1 ∈ v.known) :
    v.Names n (buildForkchoice finalized req) (some (buildPayloadAttributesFromRequest req).2) := by
  refine ⟨?_, hfinalized, hfinalized⟩
  obtain ⟨nowMillis, rfl⟩ := h.request msg req hstage
  simp only [buildForkchoice, Actor.buildRequest, Actor.parentOf]
  cases hp : n.blockInfo.value.lookup msg.parent.2 with
  | none => exact .inr ⟨rfl, rfl, msg, _, hstage, hp⟩
  | some p => exact .inl (h.hashes.records _ _ hp)

/-- A step that records a block has reth take it in. -/
theorem known_of_records {d : Digest} {i : BlockInfo}
    (hrec : Node.Records (createEnginePayloadBuilder A) n e d i) :
    i.hash ∈ (run EngineView.next v (n.messages A e)).known := by
  cases hrec with
  | proposed hstage hanchor hb =>
    obtain ⟨block, status, -, -, hstatus, hmem, rfl⟩ := buildClosure_ok_imported hb
    simp only [Node.messages, hstage, hanchor, run_buildMessages_tail]
    exact mem_known_of_imported hstatus hmem
  | verified hstage hv hm =>
    obtain ⟨block, hmem, rfl⟩ := validateClosure_valid_imported hv
    simp only [Node.messages, hstage]
    exact mem_known_of_imported (.inl rfl) hmem

theorem known_step (e : Node.Event (Reth A)) (h : Known n v) :
    Known (n.prodStep A e) (run EngineView.next v (n.messages A e)) :=
  ⟨h.hashes.step (known_run v _) fun _ _ hrec => known_of_records hrec,
    Node.requestCurrent_step e h.request⟩

theorem along_messages (h : Known n v) : CallsPermitted A (n, v) e := by
  cases e with
  | buildFcu =>
    simp only [CallsPermitted, Node.messages]
    split
    · next hstage _ => exact ⟨h.names hstage h.hashes.tracker, trivial⟩
    · trivial
  | built reth =>
    simp only [CallsPermitted, Node.messages]
    split
    · next hstage hanchor =>
      have hall := along_buildMessages reth
        (h.names hstage (h.hashes.anchor _ hanchor))
      rw [buildMessages_cons] at hall
      exact hall.2
    · trivial
  | validated reth =>
    simp only [CallsPermitted, Node.messages]
    split
    · exact along_validateMessages n v _
    · trivial
  | finalizerRecv =>
    simp only [CallsPermitted, Node.messages]
    split
    · split
      · next info hinfo =>
        obtain ⟨map, hread, hlookup⟩ := Option.bind_eq_some_iff.mp hinfo
        obtain ⟨-, rfl⟩ := Lock.read_eq_some.mp hread
        have hknown := h.hashes.records _ _ hlookup
        exact ⟨⟨.inl hknown, hknown, hknown⟩, trivial⟩
      · trivial
    · trivial
  | enqueue | recv | blockMessage | blockChannelError | broadcast | report | finalizerAnswer =>
    trivial

/-! ## The log -/

/-- A build stays under way until its builder answers. -/
theorem stage_kept {s : App} {ae : App.Event} {msg : Propose} {req : BuildPayloadRequest}
    (h : s.stage = .building msg req) (hne : ∀ result, ae ≠ .built result) :
    (s.step ae).stage = .building msg req := by
  cases ae with
  | built result => exact absurd rfl (hne result)
  | recv | validated =>
    simp only [App.step, h]
  | broadcast | report =>
    simp only [App.step]
    split
    · exact h
    · exact h
  | enqueue | blockMessage | blockChannelError => exact h

theorem buildLogged_step (e : Node.Event (Reth A)) (h : n.BuildLogged) :
    (n.prodStep A e).BuildLogged := by
  intro f hf
  have hkept : n.anchor = some f → (∀ reth, e ≠ .built reth) →
      ∃ msg req, (n.prodStep A e).stage = .building msg req ∧
        .buildFcu msg (buildForkchoice f req) ∈ (n.prodStep A e).log := by
    intro hanchor hne
    obtain ⟨msg, req, hstage, hmem⟩ := h f hanchor
    refine ⟨msg, req, ?_, (Node.log_grows_step n e).subset hmem⟩
    rcases Node.toApp_step (B := createEnginePayloadBuilder A) n e with hs | ⟨ae, hae, hs⟩
    · rw [hs]
      exact hstage
    · rw [hs]
      refine stage_kept hstage ?_
      rintro result rfl
      cases hae
      exact hne _ rfl
  rcases anchor_step_cases hf with hold | ⟨rfl, rfl⟩
  · by_cases hbuilt : ∃ reth, e = .built reth
    · -- a build that ends gives its anchor up
      obtain ⟨reth, rfl⟩ := hbuilt
      obtain ⟨msg, req, hstage, -⟩ := h f hold
      simp only [Node.step, Node.appStep, Node.appEvent, hstage, hold] at hf
      cases hf
    · exact hkept hold fun reth he => hbuilt ⟨reth, he⟩
  · cases hanchor : n.anchor with
    | some f =>
      obtain ⟨msg, req, hstage, -⟩ := h f hanchor
      have hsame : n.prodStep A .buildFcu = n := by
        simp only [Node.step, hstage, hanchor]
      rw [hsame, hanchor] at hf
      cases hf
      exact hkept hanchor (by rintro _ ⟨⟩)
    | none =>
      cases hstage : n.stage with
      | building msg req =>
        refine ⟨msg, req, ?_, ?_⟩
        · simp only [Node.step, hstage, hanchor]
        · simp only [Node.step, hstage, hanchor]
          exact List.mem_append_right _ (List.mem_singleton_self _)
      | idle | validating =>
        simp only [Node.step, hstage, hanchor] at hf
        cases hf

theorem call_startMessages {fcs : ForkchoiceState} {attrs : PayloadAttributes}
    {attempts : List Nat} {m : EngineMessage A} {c : ForkchoiceState × Bool}
    (hm : m ∈ startMessages reth fcs attrs attempts) (hc : m.call = some c) : c = (fcs, true) := by
  induction attempts with
  | nil => exact absurd hm List.not_mem_nil
  | cons attempt rest ih =>
    rcases List.mem_cons.mp hm with rfl | hm
    · exact (Option.some.inj hc).symm
    · split at hm
      · split at hm
        · cases List.mem_singleton.mp hm
          cases hc
        · exact ih hm
      · exact ih hm

/-- Every forkchoice update of a build is that of its first attempt. -/
theorem call_buildMessages {finalized : Finalized} {req : BuildPayloadRequest}
    {m : EngineMessage A} {c : ForkchoiceState × Bool}
    (hm : m ∈ buildMessages reth finalized req) (hc : m.call = some c) :
    c = (buildForkchoice finalized req, true) := by
  rcases List.mem_append.mp hm with hm | hm
  · exact call_startMessages hm hc
  · split at hm
    · rcases List.mem_cons.mp hm with rfl | hm
      · cases hc
      · split at hm
        · cases List.mem_singleton.mp hm
          cases hc
        · cases hm
    · cases hm

/-- The forkchoice updates of a step are in the log after it. -/
theorem call_logged (hb : n.BuildLogged) {m : EngineMessage A} (hm : m ∈ n.messages A e)
    {c : ForkchoiceState × Bool} (hc : m.call = some c) :
    ∃ o ∈ (n.prodStep A e).log, o.call = some c := by
  cases e with
  | buildFcu =>
    simp only [Node.messages] at hm
    split at hm
    · next msg req hstage hanchor =>
      cases List.mem_singleton.mp hm
      cases hc
      refine ⟨.buildFcu msg (buildForkchoice n.tracker.finalized req), ?_, rfl⟩
      simp only [Node.step, hstage, hanchor]
      exact List.mem_append_right _ (List.mem_singleton_self _)
    · cases hm
  | built reth =>
    simp only [Node.messages] at hm
    split at hm
    · next msg req finalized hstage hanchor =>
      obtain ⟨msg', req', hstage', hmem⟩ := hb finalized hanchor
      cases hstage.symm.trans hstage'
      refine ⟨_, (Node.log_grows_step n _).subset hmem, ?_⟩
      rw [call_buildMessages (List.mem_of_mem_tail hm) hc]
      rfl
    · cases hm
  | validated reth =>
    simp only [Node.messages] at hm
    split at hm
    · unfold validateMessages at hm
      split at hm
      · cases List.mem_singleton.mp hm
        cases hc
      · cases hm
    · cases hm
  | finalizerRecv =>
    simp only [Node.messages] at hm
    split at hm
    · next d q hidle hnext =>
      split at hm
      · next info hinfo =>
        cases List.mem_singleton.mp hm
        cases hc
        obtain ⟨map, hread, hlookup⟩ := Option.bind_eq_some_iff.mp hinfo
        refine ⟨.finalizeFcu d (finalizeForkchoice info.hash), ?_, rfl⟩
        simp only [Node.step, hidle, hnext, Node.finalizeStart, hread, hlookup]
        exact List.mem_append_right _ (List.mem_singleton_self _)
      · cases hm
    · cases hm
  | enqueue | recv | blockMessage | blockChannelError | broadcast | report | finalizerAnswer =>
    cases hm

/-- What is new in the log was called for at the step. -/
theorem logged_call (hl : n.Healthy) {o : Output} (ho : o ∈ (n.prodStep A e).log)
    {c : ForkchoiceState × Bool} (hc : o.call = some c) :
    o ∈ n.log ∨ ∃ m ∈ n.messages A e, m.call = some c := by
  refine (Node.mem_log_step ho).imp_right fun hemits => ?_
  cases hemits with
  | buildFcu hstage hanchor =>
    cases hc
    simp only [Node.messages, hstage, hanchor]
    exact ⟨_, List.mem_singleton_self _, rfl⟩
  | submitted hidle hnext hinfo =>
    cases hc
    have hread : n.blockInfo.read = some n.blockInfo.value :=
      Lock.read_eq_some.mpr ⟨hl.blockInfo, rfl⟩
    have hlookup : n.blockInfo.value.lookup _ = some _ := hinfo
    simp only [Node.messages, hidle, hnext, hread, Option.bind_some, hlookup]
    exact ⟨_, List.mem_singleton_self _, rfl⟩
  | forwarded | dropped | notFound | finalized | failed => cases hc

/-- The forkchoice updates of a run are those in its log. -/
theorem calls_run (c : Config A) (es : List (Node.Event (Reth A))) :
    ∀ call, (∃ m ∈ trace (Node.prodStep A) (Node.messages A) (Node.start c) es,
        m.call = some call) ↔
      ∃ o ∈ (run (Node.prodStep A) (Node.start c) es).log, o.call = some call := by
  have hinv : ∀ es, (run (Node.prodStep A) (Node.start c) es).Healthy ∧
      (run (Node.prodStep A) (Node.start c) es).BuildLogged :=
    run_invariant (P := fun n : Node => n.Healthy ∧ n.BuildLogged)
      (fun _ e h => ⟨Node.healthy_step e h.1, buildLogged_step e h.2⟩)
      ⟨App.healthy_new _ _ _, by rintro _ ⟨⟩⟩
  intro call
  induction es using List.reverseRecOn with
  | nil =>
    exact ⟨fun ⟨_, h, _⟩ => absurd h List.not_mem_nil, fun ⟨_, h, _⟩ => absurd h List.not_mem_nil⟩
  | append_singleton es e ih =>
    obtain ⟨hl, hb⟩ := hinv es
    rw [trace_concat, run_concat]
    constructor
    · rintro ⟨m, hm, hc⟩
      rcases List.mem_append.mp hm with hold | hnew
      · obtain ⟨o, ho, hoc⟩ := ih.mp ⟨m, hold, hc⟩
        exact ⟨o, (Node.log_grows_step _ e).subset ho, hoc⟩
      · exact call_logged hb hnew hc
    · rintro ⟨o, ho, hc⟩
      rcases logged_call hl ho hc with hold | ⟨m, hm, hmc⟩
      · obtain ⟨m, hm, hmc⟩ := ih.mpr ⟨o, hold, hc⟩
        exact ⟨m, List.mem_append_left _ hm, hmc⟩
      · exact ⟨m, List.mem_append_right _ hm, hmc⟩

end Node

end EngineApiLemmas

open EngineApiLemmas

/-- In every run of a production node, whatever its engine asks for, its peers send and
reth answers: every call that the node makes on its execution layer is permitted when it
is made. Every forkchoice update, of a build and of the finalizer, names only blocks
that reth has taken in before, or the zero hash as the head of a build whose parent the
node has not recorded, and every payload that is resolved is that of a job that reth has
started. The forkchoice updates that are made are those that the log of the node has. -/
theorem engine_calls_permitted {A : Alloy} (c : Config A) (es : List (Node.Event (Reth A))) :
    Along (engineStep A) (CallsPermitted A) (Node.start c, EngineView.start c.genesis) es ∧
      ∀ call, (∃ m ∈ trace (Node.prodStep A) (Node.messages A) (Node.start c) es,
          m.call = some call) ↔
        ∃ o ∈ (run (Node.prodStep A) (Node.start c) es).log, o.call = some call := by
  refine ⟨along_of_splits fun es₁ e _ _ => along_messages ?_, calls_run c es⟩
  exact run_invariant (P := fun p : Node × EngineView => Known p.1 p.2)
    (fun _ e h => known_step e h) ⟨hashesIn_start c, App.requestCurrent_new _ _ _⟩ es₁

/-- Block `one` is built and finalized. -/
example : trace (Node.prodStep sampleAlloy) (Node.messages sampleAlloy) (Node.start sampleConfig)
    [.enqueue (.propose (samplePropose .EMPTY 1)), .recv 11000, .buildFcu,
      .built (sampleReth .one), .report (.finalization SampleHeader.one.digest), .finalizerRecv] =
    [.forkchoice (finalizeForkchoice SampleHeader.genesis.hash)
        (some (buildPayloadAttributes SampleHeader.genesis.hash 11)),
      .started 0, .resolve 0, .imported ⟨.one, ()⟩ (.ok .valid),
      .forkchoice (finalizeForkchoice SampleHeader.one.hash) none] := rfl

end Allegro
