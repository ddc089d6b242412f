import Allegro.ClusterFinality
import Allegro.Refusals
import Allegro.Serving

/-!
# What a host at service is asked for is done

Safety says what a node does not do. A node that answered `false` throughout and dropped
every proposal would keep it. Here is what makes a cluster go on: a host that stays up,
over an execution layer at service, accepts the blocks that it was sent and asked about,
and builds the blocks that it was asked for, in three rounds of the actor's tasks for each
message that is outstanding.

Both need a recorded parent, and the record may be one that a verification ahead in the
queue is still to write. `Node.Learns` follows such chains back to what is recorded, so a
host that has just restarted with an empty record catches up on a chain of any length, if
its blocks and the verifications of them are there. A proposal has to extend what is
finalized by then, too.

Results:
1. `settled_step`: the messages that are finished are granted, as far as they are on what
   the node learns.
2. `settled_after_rounds`: one node, in any run whose steps meet `Unrefused`.
3. `outstanding_verifications_accepted`, `outstanding_proposals_built`: any host of a
   cluster, against any steps of the others.
-/

namespace Allegro

open Run Node Relation

section Definitions

/-- The proposer of the block is a validator, and the block is there. -/
structure Node.Holds (n : Node) (msg : Verify) : Prop where
  proposer : n.validators.lookup msg.proposer ≠ none
  block : (n.pendingBlocks.value.lookup msg.payload).isSome ∨
    (n.receivedBlocks.value.lookup msg.payload).isSome

/-- The digest is recorded, or its block is there and is to be verified by one of the
messages `ahead`, on a parent that is learned before it. -/
inductive Node.Learns (n : Node) : List Message → Digest → Prop
  | recorded {ahead : List Message} {d : Digest} : (n.info d).isSome → n.Learns ahead d
  | verified {ahead rest : List Message} {msg : Verify} : n.Holds msg →
      n.Learns ahead msg.parent.2 → n.Learns (ahead ++ .verify msg :: rest) msg.payload

/-- The requests that are answered before one that has the messages `ahead` in front of it. -/
def Node.earlier (n : Node) (ahead : List Message) : List Message :=
  n.answers.map Answer.message ++ ahead.filterMap Message.request

/-- The node has answered the requests `earlier`, and the next one by `answer`. -/
def Node.AnswersAfter (n : Node) (earlier : List Message) (answer : Answer) : Prop :=
  ∃ before after, n.answers = before ++ answer :: after ∧ before.map Answer.message = earlier

/-- After the requests `earlier` the node has answered `true`, and it has recorded the
block. -/
def Node.Accepted (n : Node) (earlier : List Message) (msg : Verify) : Prop :=
  n.AnswersAfter earlier (.verified msg true) ∧ (n.info msg.payload).isSome

/-- After the requests `earlier` the node has answered with a block that it has recorded and
holds for its relay. -/
def Node.Built (n : Node) (earlier : List Message) (msg : Propose) : Prop :=
  ∃ d, n.AnswersAfter earlier (.proposed msg (some d)) ∧ (n.info d).isSome ∧
    (n.pendingBlocks.value.lookup d).isSome

/-- The refusals of the step are explained, and what a build is anchored at is an ancestor
of the parents of the proposals `P`. -/
structure Unrefused {A : Alloy} (P : Set Propose) (n : Node) (e : Node.Event (Reth A)) :
    Prop where
  explained : RefusalsExplained A n e
  descends : ∀ msg ∈ P, ∀ finalized p, n.anchor = some finalized → n.info msg.parent.2 = some p →
    ReflTransGen (ExecParent A) finalized.1 p.hash

/-- What `n` comes to when the messages `done` are finished. -/
structure Settled (P : Set Propose) (n : Node) (done : List Message) (m : Node) : Prop where
  healthy : m.Healthy
  validators : m.validators = n.validators
  info : ∀ d, (n.info d).isSome → (m.info d).isSome
  pending : ∀ d, (n.pendingBlocks.value.lookup d).isSome →
    (m.pendingBlocks.value.lookup d).isSome
  received : ∀ d, (n.receivedBlocks.value.lookup d).isSome →
    (m.receivedBlocks.value.lookup d).isSome
  answers : m.answers.map Answer.message = n.earlier done
  accepted : ∀ ahead msg rest, done = ahead ++ .verify msg :: rest → n.Holds msg →
    n.Learns ahead msg.parent.2 → m.Accepted (n.earlier ahead) msg
  built : ∀ ahead msg rest, done = ahead ++ .propose msg :: rest → msg ∈ P →
    n.Learns ahead msg.parent.2 → m.Built (n.earlier ahead) msg

/-- The anchors of the node stand for digests of `F`, with all that it finalizes. -/
structure AnchorsIn {A : Alloy} (g : Genesis A) (F : Set Digest) (n : Node) : Prop where
  final : Final g F n
  anchor : ∀ finalized, n.anchor = some finalized → ∃ f ∈ F, finalized.1 = g.hashOf f

/-- The task of host `i` that a step of the cluster is. -/
def taskOf {ι ρ κ : Type} [DecidableEq ι] (task : Node.Event ρ → Option κ) (i : ι)
    (ie : ι × Option (Node.Event ρ)) : Option κ :=
  if ie.1 = i then ie.2.bind task else none

/-- The node of host `i` after the steps `es` of the cluster. -/
def hostAfter {A : Alloy} {ι : Type} [DecidableEq ι] (cfg : ι → Config A)
    (es : List (ι × Option (Node.Event (Reth A)))) (i : ι) : Node :=
  ((run (servedHosts A).netStep (servedStart cfg) es).party i).2.1

end Definitions

namespace AcceptanceLemmas

open ServingLemmas

variable {A : Alloy} {n m : Node} {done : List Message} {e : Node.Event (Reth A)}
  {P : Set Propose}

/-! ## One node -/

theorem settled_refl (hl : n.Healthy) : Settled P n [] n where
  healthy := hl
  validators := rfl
  info := fun _ h => h
  pending := fun _ h => h
  received := fun _ h => h
  answers := (List.append_nil _).symm
  accepted := fun ahead _ rest h =>
    absurd h.symm (List.append_ne_nil_of_right_ne_nil ahead (List.cons_ne_nil _ rest))
  built := fun ahead _ rest h =>
    absurd h.symm (List.append_ne_nil_of_right_ne_nil ahead (List.cons_ne_nil _ rest))

/-- What was to be learned from the finished messages is recorded. -/
theorem recorded_of_learns (h : Settled P n done m) {d : Digest} (hd : n.Learns done d) :
    (m.info d).isSome := by
  cases hd with
  | recorded hinfo => exact h.info d hinfo
  | verified hholds hparent => exact (h.accepted _ _ _ rfl hholds hparent).2

theorem holds_of_settled (h : Settled P n done m) {msg : Verify} (hm : n.Holds msg) :
    m.Holds msg where
  proposer := h.validators ▸ hm.proposer
  block := hm.block.imp (h.pending msg.payload) (h.received msg.payload)

theorem answers_step_cases (m : Node) (e : Node.Event (Reth A)) :
    (m.prodStep A e).answers = m.answers ∨
      ∃ answer, (m.prodStep A e).answers = m.answers ++ [answer] := by
  rcases toApp_step (B := createEnginePayloadBuilder A) m e with hs | ⟨ae, -, hs⟩
  · exact .inl (congrArg App.answers hs)
  · rw [hs]
    exact (App.answers_step m.toApp ae).imp_right fun ⟨answer, _, hnew⟩ => ⟨answer, hnew⟩

theorem answersAfter_step {earlier : List Message} {answer : Answer}
    (h : m.AnswersAfter earlier answer) : (m.prodStep A e).AnswersAfter earlier answer := by
  obtain ⟨before, after, hans, hbefore⟩ := h
  rcases answers_step_cases m e with hsame | ⟨new, hnew⟩
  · exact ⟨before, after, hsame.trans hans, hbefore⟩
  · refine ⟨before, after ++ [new], ?_, hbefore⟩
    rw [hnew, hans, List.append_assoc, List.cons_append]

/-- The step that finishes a request answers it. -/
theorem answers_of_finished {msg : Message} {arrived : List Message}
    (h : Serves m.toApp (m.prodStep A e).toApp arrived (some msg))
    (hreq : msg.request = some msg) :
    ∃ answer, answer.message = msg ∧ (m.prodStep A e).answers = m.answers ++ [answer] := by
  have hanswered : (m.prodStep A e).answers.map Answer.message =
      m.answers.map Answer.message ++ [msg] := by
    have h' := h.2
    rwa [Option.toList_some, List.filterMap_cons_some hreq, List.filterMap_nil] at h'
  rcases answers_step_cases m e with hsame | ⟨answer, hnew⟩
  · rw [hsame] at hanswered
    exact absurd hanswered (by simp)
  · rw [hnew, List.map_append] at hanswered
    exact ⟨answer, List.singleton_inj.mp (List.append_cancel_left hanswered), hnew⟩

/-- A step that answers `true` has recorded the block. -/
theorem accepted_of_answers (hl : m.Healthy) {msg : Verify}
    (h : (m.prodStep A e).answers = m.answers ++ [.verified msg true]) :
    (m.prodStep A e).Accepted (m.answers.map Answer.message) msg := by
  constructor
  · exact ⟨m.answers, [], h, rfl⟩
  · obtain ⟨ae, hae, -, hr⟩ := OwnProposalsLemmas.responds_of_answers h
    cases hr with
    | accepted hstage hm =>
      obtain ⟨reth, rfl, hv⟩ := drives_validated hae hstage
      rw [info_step_of_records hl.blockInfo (.verified hstage hv hm)]
      rfl

/-- A step that answers with a digest has recorded and stored the block. -/
theorem built_of_answers (hl : m.Healthy) {msg : Propose} {d : Digest}
    (h : (m.prodStep A e).answers = m.answers ++ [.proposed msg (some d)]) :
    (m.prodStep A e).Built (m.answers.map Answer.message) msg := by
  refine ⟨d, ⟨m.answers, [], h, rfl⟩, ?_⟩
  obtain ⟨ae, hae, hs, hr⟩ := OwnProposalsLemmas.responds_of_answers h
  cases hr with
  | proposed hstage =>
    obtain ⟨reth, finalized, rfl, hanchor, hb⟩ := drives_built hae hstage
    constructor
    · rw [info_step_of_records hl.blockInfo (.proposed hstage hanchor hb)]
      rfl
    · rw [hs, App.pending_step_of_built hl.pendingBlocks hstage _]
      rfl

/-- A verification on what the node has learned is not refused. -/
theorem accepted_of_finished (h : Settled P n done m) (hx : RefusalsExplained A m e)
    {msg : Verify} {arrived : List Message}
    (hserves : Serves m.toApp (m.prodStep A e).toApp arrived (some (.verify msg)))
    (hholds : n.Holds msg) (hparent : n.Learns done msg.parent.2) :
    (m.prodStep A e).Accepted (n.earlier done) msg := by
  rw [← h.answers]
  obtain ⟨answer, hmsg, hans⟩ := answers_of_finished hserves rfl
  cases answer with
  | proposed => cases hmsg
  | verified _ valid =>
    cases hmsg
    cases valid with
    | true => exact accepted_of_answers h.healthy hans
    | false =>
      obtain ⟨hproposer, hblock⟩ := holds_of_settled h hholds
      rcases hx.verify msg hans with hnone | ⟨hpending, hreceived⟩ | hnone
      · exact absurd hnone hproposer
      · rw [hpending, hreceived] at hblock
        rcases hblock with hb | hb
        · cases hb
        · cases hb
      · have hrec := recorded_of_learns h hparent
        rw [hnone] at hrec
        cases hrec

/-- A proposal on what the node has learned is not dropped. -/
theorem built_of_finished (h : Settled P n done m) (hx : Unrefused P m e) {msg : Propose}
    {arrived : List Message}
    (hserves : Serves m.toApp (m.prodStep A e).toApp arrived (some (.propose msg)))
    (hmsg : msg ∈ P) (hparent : n.Learns done msg.parent.2) :
    (m.prodStep A e).Built (n.earlier done) msg := by
  rw [← h.answers]
  obtain ⟨answer, hans, hnew⟩ := answers_of_finished hserves rfl
  cases answer with
  | verified => cases hans
  | proposed _ digest =>
    cases hans
    cases digest with
    | some d => exact built_of_answers h.healthy hnew
    | none =>
      rcases hx.explained.propose msg hnew with hnone | ⟨finalized, p, hanchor, hp, hdesc⟩
      · have hrec := recorded_of_learns h hparent
        rw [hnone] at hrec
        cases hrec
      · exact absurd (hx.descends msg hmsg finalized p hanchor hp) hdesc

theorem accepted_step {earlier : List Message} {msg : Verify} (h : m.Accepted earlier msg) :
    (m.prodStep A e).Accepted earlier msg :=
  ⟨answersAfter_step h.1, info_step_isSome e h.2⟩

theorem built_step {earlier : List Message} {msg : Propose} (h : m.Built earlier msg) :
    (m.prodStep A e).Built earlier msg := by
  obtain ⟨d, hans, hinfo, hpending⟩ := h
  exact ⟨d, answersAfter_step hans, info_step_isSome e hinfo, pending_step_isSome e hpending⟩

/-- A finished message was finished before, or it is the one that is finished now. -/
theorem finished_cases {ahead rest : List Message} {msg : Message} {now : Option Message}
    (h : done ++ now.toList = ahead ++ msg :: rest) :
    (∃ rest', done = ahead ++ msg :: rest') ∨ (done = ahead ∧ now = some msg) := by
  cases now with
  | none =>
    rw [Option.toList_none, List.append_nil] at h
    exact .inl ⟨rest, h⟩
  | some last =>
    rcases List.eq_nil_or_concat rest with rfl | ⟨rest, msg', rfl⟩
    · obtain ⟨hdone, hlast⟩ := List.append_inj' h rfl
      exact .inr ⟨hdone, congrArg some (List.singleton_inj.mp hlast)⟩
    · rw [List.concat_eq_append, ← List.cons_append, ← List.append_assoc] at h
      exact .inl ⟨rest, (List.append_inj' h rfl).1⟩

theorem settled_step (h : Settled P n done m) (hx : Unrefused P m e) {now : Option Message}
    (hserves : Serves m.toApp (m.prodStep A e).toApp (enqueued [e]) now) :
    Settled P n (done ++ now.toList) (m.prodStep A e) where
  healthy := healthy_step e h.healthy
  validators := (validators_step m e).trans h.validators
  info := fun d hd => info_step_isSome e (h.info d hd)
  pending := fun d hd => pending_step_isSome e (h.pending d hd)
  received := fun d hd => received_step_isSome e (h.received d hd)
  answers := by
    rw [hserves.2, h.answers, earlier, earlier, List.filterMap_append, List.append_assoc]
  accepted := by
    intro ahead msg rest heq hholds hparent
    rcases finished_cases heq with ⟨rest', hdone⟩ | ⟨rfl, rfl⟩
    · exact accepted_step (h.accepted ahead msg rest' hdone hholds hparent)
    · exact accepted_of_finished h hx.explained hserves hholds hparent
  built := by
    intro ahead msg rest heq hmsg hparent
    rcases finished_cases heq with ⟨rest', hdone⟩ | ⟨rfl, rfl⟩
    · exact built_step (h.built ahead msg rest' hdone hmsg hparent)
    · exact built_of_finished h hx hserves hmsg hparent

theorem settled_run {es : List (Node.Event (Reth A))} (h : Settled P n done m)
    (hx : Along (prodStep A) (Unrefused P) m es) :
    ∃ now, m.outstanding ++ enqueued es = now ++ (run (prodStep A) m es).outstanding ∧
      Settled P n (done ++ now) (run (prodStep A) m es) := by
  induction es generalizing m done with
  | nil =>
    refine ⟨[], List.append_nil _, ?_⟩
    rw [List.append_nil]
    exact h
  | cons e es ih =>
    obtain ⟨now, hserves⟩ := node_serves_step (B := createEnginePayloadBuilder A) m e
    obtain ⟨later, hlater, hsettled⟩ := ih (settled_step h hx.1 hserves) hx.2
    refine ⟨now.toList ++ later, ?_, ?_⟩
    · have hcons : enqueued (e :: es) = enqueued [e] ++ enqueued es :=
        List.filterMap_append (l := [e])
      rw [hcons, ← List.append_assoc, hserves.1, List.append_assoc, hlater, List.append_assoc]
      rfl
    · rw [← List.append_assoc]
      exact hsettled

/-- Rounds enough for what is outstanding finish it. -/
theorem settled_after_rounds {es : List (Node.Event (Reth A))} {k : Nat} (hl : n.Healthy)
    (hx : Along (prodStep A) (Unrefused P) n es) (hk : 3 * n.outstanding.length ≤ k)
    (hrounds : Rounds Node.Event.actorTask k es) :
    ∃ more, Settled P n (n.outstanding ++ more) (run (prodStep A) n es) := by
  obtain ⟨done, hdone, hsettled⟩ := settled_run (settled_refl hl) hx
  let w := actorWorker (createEnginePayloadBuilder A)
  have hlen := Worker.waiting_after_rounds (w := w) (s := n) trivial hk hrounds
  have hpre : n.outstanding <+: done := by
    refine w.prefix_of_length_le (s := n) ?_ hlen
    rw [trace_arrives]
    exact hdone
  obtain ⟨more, rfl⟩ := hpre
  exact ⟨more, hsettled⟩

/-! ## One host of the cluster -/

variable {ι κ : Type} [DecidableEq ι] {i : ι} {task : Node.Event (Reth A) → Option κ}

theorem taskOf_eq {ie : ι × Option (Node.Event (Reth A))} {c : κ} (h : taskOf task i ie = some c) :
    ∃ e, ie = (i, some e) ∧ task e = some c := by
  obtain ⟨j, e⟩ := ie
  unfold taskOf at h
  split at h
  · next hi =>
    obtain ⟨e', rfl, htask⟩ := Option.bind_eq_some_iff.mp h
    cases hi
    exact ⟨e', rfl, htask⟩
  · cases h

/-- A round of the tasks of a node is a round of the tasks of its host. -/
theorem taskOf_round {round : List (Node.Event (Reth A))}
    (h : ∀ c, ∃ e ∈ round, task e = some c) (c : κ) :
    ∃ ie ∈ round.map fun e => (i, some e), taskOf task i ie = some c := by
  obtain ⟨e, he, htask⟩ := h c
  refine ⟨(i, some e), List.mem_map_of_mem he, ?_⟩
  rw [taskOf, if_pos rfl]
  exact htask

/-- The actor's tasks need no message of another host. -/
theorem receives_of_actorTask (e : Node.Event (Reth A)) (c : ActorTask)
    (h : e.actorTask = some c) : (servedMachine A).receives e = none := by
  cases e with
  | recv | buildFcu | built | validated => rfl
  | _ => cases h

/-- While a host is up it runs its node. -/
theorem hostAfter_taken {cfg : ι → Config A} {es es' : List (ι × Option (Node.Event (Reth A)))}
    {C : Node → Node.Event (Reth A) → Prop} (hup : (i, none) ∉ es')
    (hC : Along (servedHosts A).netStep (Machine.Local (Machine.WhileUp fun _ p e => C p.1 e))
      (run (servedHosts A).netStep (servedStart cfg) es) es') :
    hostAfter cfg (es ++ es') i = run (prodStep A) (hostAfter cfg es i)
      (trace (servedHosts A).netStep ((servedMachine A).taken bootServed i)
        (run (servedHosts A).netStep (servedStart cfg) es) es') := by
  -- the host's view of its engine makes no difference to its node
  rw [hostAfter, run_append, (Machine.run_taken hup hC).1]
  exact run_hom Prod.fst (fun _ _ => rfl) _ _

/-- What a host does while it is up is a run of its node, with the rounds of the host in
tasks that need no message. -/
theorem node_run {cfg : ι → Config A} {es es' : List (ι × Option (Node.Event (Reth A)))}
    {C : Node → Node.Event (Reth A) → Prop} {k : Nat}
    (htask : ∀ e c, task e = some c → (servedMachine A).receives e = none)
    (hup : (i, none) ∉ es')
    (hC : Along (servedHosts A).netStep (Machine.Local (Machine.WhileUp fun _ p e => C p.1 e))
      (servedStart cfg) (es ++ es'))
    (hrounds : Rounds (taskOf task i) k es') :
    ∃ mine, Rounds task k mine ∧ Along (prodStep A) C (hostAfter cfg es i) mine ∧
      hostAfter cfg (es ++ es') i = run (prodStep A) (hostAfter cfg es i) mine ∧
      ∀ before e after, mine = before ++ e :: after → ∃ es₁ es₂, es' = es₁ ++ (i, some e) :: es₂ ∧
        hostAfter cfg (es ++ es₁) i = run (prodStep A) (hostAfter cfg es i) before := by
  have halong := (along_append.mp hC).2
  refine ⟨_, hrounds.trace (fun s ie c hc => ?_) (run (servedHosts A).netStep (servedStart cfg) es),
    (Machine.run_taken hup halong).2.hom (f := Prod.fst) (fun _ _ => rfl) fun _ _ h => h,
    hostAfter_taken hup halong, fun before e after hmine => ?_⟩
  · obtain ⟨e, rfl, he⟩ := taskOf_eq hc
    exact ⟨e, Machine.mem_taken (htask e c he) s, he⟩
  · obtain ⟨es₁, es₂, rfl, rfl⟩ := Machine.split_taken hmine
    refine ⟨es₁, es₂, rfl, hostAfter_taken ?_ (along_append.mp halong).1⟩
    exact fun hmem => hup (List.mem_append_left _ hmem)

/-- Rounds of a host enough for what is outstanding finish it. -/
theorem settled_host {cfg : ι → Config A} {es es' : List (ι × Option (Node.Event (Reth A)))}
    {k : Nat} (hl : (hostAfter cfg es i).Healthy) (hup : (i, none) ∉ es')
    (hC : Along (servedHosts A).netStep
      (Machine.Local (Machine.WhileUp fun _ p e => Unrefused P p.1 e))
      (servedStart cfg) (es ++ es'))
    (hk : 3 * (hostAfter cfg es i).outstanding.length ≤ k)
    (hrounds : Rounds (taskOf Node.Event.actorTask i) k es') :
    ∃ more, Settled P (hostAfter cfg es i) ((hostAfter cfg es i).outstanding ++ more)
      (hostAfter cfg (es ++ es') i) := by
  obtain ⟨mine, hmine, hx, hnode, -⟩ := node_run receives_of_actorTask hup hC hrounds
  rw [hnode]
  exact settled_after_rounds hl hx hk hmine

/-! ## What builds are anchored at -/

section Anchors

open ClusterLemmas ClusterFinalityLemmas RefusalsLemmas

variable {g : Genesis A} {Valid : A.Block → Prop} {F : Set Digest} {cfg : ι → Config A}
  {es : List (ι × Option (Node.Event (Reth A)))}

theorem anchorsIn_start {c : Config A} (hc : c.genesis = g) (hF : Digest.EMPTY ∈ F) :
    AnchorsIn g F (Node.start c) where
  final := final_start hc hF
  anchor := fun _ h => (nomatch h)

theorem anchorsIn_step (hs : Sound g n) (h : AnchorsIn g F n)
    (hF : ∀ d, e.finalized = some d → d ∈ F) : AnchorsIn g F (n.prodStep A e) where
  final := final_step hs h.final hF
  anchor := by
    intro finalized hf
    rcases EngineApiLemmas.anchor_step_cases hf with hold | ⟨rfl, -⟩
    · exact h.anchor finalized hold
    · exact h.final.tracker

theorem anchorsIn_run (hA : A.CollisionFree) (hz : A.NonZero) (hr : A.RoundTrips)
    (hcfg : ∀ i, (cfg i).genesis = g) (hfits : (A.timestamp g.header).toNat * 1000 < 2 ^ 64)
    (hserved : Along (servedHosts A).netStep
      (Machine.Local (Machine.WhileUp fun _ p e => AtService Valid p.1 p.2 e))
      (servedStart cfg) es)
    (hF : Digest.EMPTY ∈ F) (hrep : ∀ f ∈ clusterReported es, f ∈ F) (i : ι) :
    AnchorsIn g F (hostAfter cfg es i) := by
  have hreported : ∀ ie ∈ es, ∀ e, ie.2 = some e → ∀ d, e.finalized = some d → d ∈ F := by
    intro ie hie e he d hd
    refine hrep d (List.mem_filterMap.mpr ⟨ie, hie, ?_⟩)
    rw [he]
    exact hd
  have hinv := Machine.restarting_invariant (m := servedMachine A)
    (K := fun c : Config A => c.genesis = g)
    (I := fun _ (p : Node × EngineView) => InService g Valid p.1 p.2 ∧ AnchorsIn g F p.1)
    (J := Packet.Proposes g Valid)
    (C := fun _ p e => AtService Valid p.1 p.2 e ∧ ∀ d, e.finalized = some d → d ∈ F)
    (fun _ hc => ⟨inService_start hc hfits, anchorsIn_start hc hF⟩)
    (fun _ _ _ _ hs hC hmsg => ⟨inService_step hA hz hr hs.1 hC.1 hmsg,
      anchorsIn_step hs.1.sound hs.2 hC.2⟩)
    (fun _ _ _ _ hs hC _ hmem => proposes_sends hA hz hs.1 hC.1 hmem) hcfg
    ((hserved.and (along_of_forall hreported)).mono fun _ _ h e he => ⟨h.1 e he, h.2 e he⟩)
  exact (hinv.party i).2.2

/-- A connected block descends from genesis. -/
theorem exec_of_connected {h : A.Header} (hc : Connected g h) :
    ReflTransGen (ExecParent A) (A.hashSlow g.header) (A.hashSlow h) := by
  induction hc with
  | genesis => exact .refl
  | @child _ h _ hparent _ ih => exact ih.tail ⟨h, rfl, hparent⟩

/-- What a build is anchored at is an ancestor of a recorded block that extends all that
is finalized. -/
theorem descends_of_anchorsIn (hs : Sound g n) (hn : AnchorsIn g F n) {d : Digest}
    (hd : ∀ f ∈ F, f = Digest.EMPTY ∨ ReflTransGen (ExecParent A) (g.hashOf f) (g.hashOf d))
    {finalized : Finalized} {p : BlockInfo} (hanchor : n.anchor = some finalized)
    (hp : n.info d = some p) : ReflTransGen (ExecParent A) finalized.1 p.hash := by
  obtain ⟨f, hf, hhash⟩ := hn.anchor finalized hanchor
  obtain ⟨h, hcon, hhdr, ⟨-, hih, -⟩, -⟩ := hs.records _ _ hp
  rw [hhash, hih]
  rcases hd f hf with rfl | hdesc
  · rw [hashOf_empty]
    exact exec_of_connected hcon
  · rw [hhdr]
    exact hdesc

theorem unrefused_run (hA : A.CollisionFree) (hz : A.NonZero) (hr : A.RoundTrips)
    (hcfg : ∀ i, (cfg i).genesis = g) (hfits : (A.timestamp g.header).toNat * 1000 < 2 ^ 64)
    (hserved : Along (servedHosts A).netStep
      (Machine.Local (Machine.WhileUp fun _ p e => AtService Valid p.1 p.2 e))
      (servedStart cfg) es)
    (hP : ∀ msg ∈ P, ∀ f ∈ clusterReported es,
      ReflTransGen (ExecParent A) (g.hashOf f) (g.hashOf msg.parent.2)) :
    Along (servedHosts A).netStep
      (Machine.Local (Machine.WhileUp fun _ p e => Unrefused P p.1 e)) (servedStart cfg) es := by
  refine along_of_splits fun es₁ ie es₂ hes => ?_
  have hprefix : Along (servedHosts A).netStep
      (Machine.Local (Machine.WhileUp fun _ p e => AtService Valid p.1 p.2 e))
      (servedStart cfg) es₁ := by
    rw [hes] at hserved
    exact (along_append.mp hserved).1
  obtain ⟨-, hin⟩ := (inService_run hA hz hr hcfg hfits hprefix).party ie.1
  have hanchors : AnchorsIn g {d | d = Digest.EMPTY ∨ d ∈ clusterReported es}
      (hostAfter cfg es₁ ie.1) := by
    refine anchorsIn_run hA hz hr hcfg hfits hprefix (.inl rfl) (fun f hf => .inr ?_) ie.1
    rw [hes, clusterReported, List.filterMap_append]
    exact List.mem_append_left _ hf
  intro e he
  refine ⟨?_, fun msg hmsg finalized p hanchor hp =>
    descends_of_anchorsIn hin.sound hanchors (fun f hf => hf.imp_right (hP msg hmsg f)) hanchor hp⟩
  rw [hes] at hserved
  exact refusalsExplained_step hA hz hr hin (hserved.at e he)

end Anchors

end AcceptanceLemmas

open AcceptanceLemmas

/-- In a cluster at service, after any run `es` of it: whatever the other hosts do, and
whatever is delivered and enqueued in between, a host that stays up and takes three rounds
of the actor's tasks for each message it has outstanding answers `true` to each of the
outstanding verifications when its turn comes, and records its block, if it holds the block
and has learned the parent. -/
theorem outstanding_verifications_accepted {A : Alloy} {ι : Type} [DecidableEq ι]
    (hA : A.CollisionFree) (hz : A.NonZero) (hr : A.RoundTrips) (g : Genesis A)
    (hfits : (A.timestamp g.header).toNat * 1000 < 2 ^ 64) (cfg : ι → Config A)
    (hcfg : ∀ i, (cfg i).genesis = g) (Valid : A.Block → Prop)
    (es es' : List (ι × Option (Node.Event (Reth A))))
    (hserved : Along (servedHosts A).netStep
      (Machine.Local (Machine.WhileUp fun _ p e => AtService Valid p.1 p.2 e))
      (servedStart cfg) (es ++ es'))
    (i : ι) (hup : (i, none) ∉ es') (k : Nat)
    (hk : 3 * (hostAfter cfg es i).outstanding.length ≤ k)
    (hrounds : Rounds (taskOf Node.Event.actorTask i) k es')
    (ahead rest : List Message) (msg : Verify)
    (hout : (hostAfter cfg es i).outstanding = ahead ++ .verify msg :: rest)
    (hholds : (hostAfter cfg es i).Holds msg)
    (hparent : (hostAfter cfg es i).Learns ahead msg.parent.2) :
    (hostAfter cfg (es ++ es') i).Accepted ((hostAfter cfg es i).earlier ahead) msg := by
  have hbefore := (along_append.mp hserved).1
  obtain ⟨-, hin⟩ := (RefusalsLemmas.inService_run hA hz hr hcfg hfits hbefore).party i
  have hunrefused := unrefused_run (P := ∅) hA hz hr hcfg hfits hserved
    fun _ hmsg => absurd hmsg (Set.notMem_empty _)
  obtain ⟨more, hsettled⟩ := settled_host hin.sound.healthy hup hunrefused hk hrounds
  refine hsettled.accepted ahead msg (rest ++ more) ?_ hholds hparent
  rw [hout, List.append_assoc, List.cons_append]

/-- `true` proposes block `one`, then `two` on top of it. `false` restarts, receives both
blocks and is asked to verify them. -/
def deliveryRun : List (Bool × Option (Node.Event (Reth sampleAlloy))) :=
  [(true, some (.enqueue (.propose (samplePropose .EMPTY 1)))), (true, some (.recv 11000)),
    (true, some .buildFcu), (true, some (.built (sampleReth .one))),
    (true, some (.broadcast SampleHeader.one.digest (.propose ⟨0, 1⟩) ⟨fun _ => true, true⟩)),
    (true, some (.enqueue (.propose (samplePropose SampleHeader.one.digest 2)))),
    (true, some (.recv 12000)), (true, some .buildFcu), (true, some (.built (sampleReth .two))),
    (true, some (.broadcast SampleHeader.two.digest (.propose ⟨0, 2⟩) ⟨fun _ => true, true⟩)),
    (false, none), (false, some (.blockMessage (wireMessage SampleHeader.one.digest [2]))),
    (false, some (.blockMessage (wireMessage SampleHeader.two.digest [3]))),
    (false, some (.enqueue (.verify (sampleVerify .EMPTY SampleHeader.one.digest 1)))),
    (false, some (.enqueue (.verify (sampleVerify SampleHeader.one.digest
      SampleHeader.two.digest 2))))]

/-- Six rounds of the tasks of `false`. -/
def catchUpRun : List (Bool × Option (Node.Event (Reth sampleAlloy))) :=
  (List.replicate 6 (taskRound.map fun e => (false, some e))).flatten

/-- A host that was asked for no proposal builds nothing, so any reth that serves it is at
service. -/
theorem served_of_verifying {s : Net Bool (Config sampleAlloy × Node × EngineView) Packet}
    {es : List (Bool × Option (Node.Event (Reth sampleAlloy)))}
    (hes : ∀ ie ∈ es, ∃ e ∈ taskRound, ie = (false, some e))
    (hs : ∀ msg, .propose msg ∉ (s.party false).2.1.outstanding) :
    Along (servedHosts sampleAlloy).netStep
      (Machine.Local (Machine.WhileUp fun _ p e => AtService SampleHeader.NotGenesis p.1 p.2 e))
      s es := by
  induction es generalizing s with
  | nil => trivial
  | cons ie es ih =>
    obtain ⟨e, he, rfl⟩ := hes ie List.mem_cons_self
    constructor
    · have hidle : ∀ msg req, (s.party false).2.1.stage ≠ .building msg req := by
        intro msg req hstage
        refine hs msg ?_
        rw [App.outstanding, hstage]
        exact List.mem_cons_self
      simp only [taskRound, List.mem_cons, List.not_mem_nil, or_false] at he
      rcases he with rfl | rfl | rfl | rfl
      · exact served_quiet rfl
      · exact served_quiet rfl
      · exact served_idle rfl hidle
      · exact served_idle rfl hidle
    · refine ih (fun ie hie => hes ie (List.mem_cons_of_mem _ hie)) fun msg hmem => ?_
      rw [Machine.party_netStep] at hmem
      rcases Machine.heard_cases (servedHosts sampleAlloy) false s (false, some e) with
        hnone | ⟨-, hone⟩
      · rw [hnone] at hmem
        exact hs msg hmem
      · rw [hone] at hmem
        rcases ServingLemmas.mem_outstanding_step hmem with hold | rfl
        · exact hs msg hold
        · simp [taskRound] at he

theorem deliveryRun_served :
    Along (servedHosts sampleAlloy).netStep
      (Machine.Local (Machine.WhileUp fun _ p e => AtService SampleHeader.NotGenesis p.1 p.2 e))
      (servedStart fun _ : Bool => sampleConfig) (deliveryRun ++ catchUpRun) := by
  refine along_append.mpr ⟨⟨served_quiet rfl, served_quiet rfl, served_quiet rfl,
    served_build rfl (by decide) rfl rfl rfl, served_quiet rfl, served_quiet rfl, served_quiet rfl,
    served_quiet rfl, served_build rfl (by decide) rfl rfl rfl, served_quiet rfl,
    by rintro e ⟨⟩, served_quiet rfl, served_quiet rfl, served_quiet rfl, served_quiet rfl,
    trivial⟩, ?_⟩
  refine served_of_verifying (fun ie hie => ?_) fun msg hmem => ?_
  · obtain ⟨es, hes, hie⟩ := List.mem_flatten.mp hie
    rw [List.eq_of_mem_replicate hes] at hie
    obtain ⟨e, he, rfl⟩ := List.mem_map.mp hie
    exact ⟨e, he, rfl⟩
  · have hout : (hostAfter (fun _ => sampleConfig) deliveryRun false).outstanding =
        [.verify (sampleVerify .EMPTY SampleHeader.one.digest 1),
          .verify (sampleVerify SampleHeader.one.digest SampleHeader.two.digest 2)] := by decide
    rw [← hostAfter, hout] at hmem
    simp at hmem

theorem restarted_host_catches_up :
    (hostAfter (fun _ => sampleConfig) (deliveryRun ++ catchUpRun) false).Accepted
      [.verify (sampleVerify .EMPTY SampleHeader.one.digest 1)]
      (sampleVerify SampleHeader.one.digest SampleHeader.two.digest 2) := by
  have hearlier : (hostAfter (fun _ => sampleConfig) deliveryRun false).earlier
      [.verify (sampleVerify .EMPTY SampleHeader.one.digest 1)] =
      [.verify (sampleVerify .EMPTY SampleHeader.one.digest 1)] := by decide
  rw [← hearlier]
  exact outstanding_verifications_accepted sampleAlloy_collisionFree sampleAlloy_nonZero
    sampleAlloy_roundTrips sampleConfig.genesis (by decide) (fun _ => sampleConfig)
    (fun _ => rfl) SampleHeader.NotGenesis deliveryRun catchUpRun deliveryRun_served false
    (by simp [catchUpRun, taskRound]) 6 (by decide)
    (rounds_replicate (taskOf_round taskRound_tasks) 6)
    [.verify (sampleVerify .EMPTY SampleHeader.one.digest 1)] [] _ (by decide)
    ⟨by decide, by decide⟩
    (@Node.Learns.verified _ [] [] (sampleVerify .EMPTY SampleHeader.one.digest 1)
      ⟨by decide, by decide⟩ (.recorded (by decide)))

end Allegro
