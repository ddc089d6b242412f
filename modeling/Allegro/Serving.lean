import Allegro.Node
import Allegro.Lib.Server

/-!
# Every request is answered

The actor works through its mailbox while the engine keeps filling it. A
`Propose` that is built takes three steps of the node: the actor takes it, the
closure submits its forkchoice update, and the builder answers. The steps of
other tasks come in between, in any number.

`actorWorker` is the mailbox as a queue. Requests get a response, broadcasts do
not.

Results:
1. `serves_step`: what a step takes off the mailbox is what it responds to.
2. `requests_answered_in_order`: the responses, then what is outstanding, are the
   requests enqueued.
3. `outstanding_requests_answered`: three rounds of the tasks for each message
   that is outstanding are enough to answer them all.
-/

namespace Allegro

open Run Node

section Definitions

/-- The messages that wait for a response. -/
def Message.request : Message → Option Message
  | .propose msg => some (.propose msg)
  | .verify msg => some (.verify msg)
  | .broadcast _ => none

/-- The request that a response is for. -/
def Answer.message : Answer → Message
  | .proposed msg _ => .propose msg
  | .verified msg _ => .verify msg

/-- The steps by which a handler comes forward. -/
inductive ActorTask
  | recv
  | buildFcu
  | built
  | validated
deriving DecidableEq

variable {ρ : Type}

def Node.Event.actorTask : Node.Event ρ → Option ActorTask
  | .recv _ => some .recv
  | .buildFcu => some .buildFcu
  | .built _ => some .built
  | .validated _ => some .validated
  | _ => none

/-- The step that the oldest message needs next. -/
def Node.actorNeeds (n : Node) : ActorTask :=
  match n.stage, n.anchor with
  | .idle, _ => .recv
  | .building _ _, none => .buildFcu
  | .building _ _, some _ => .built
  | .validating _ _ _, _ => .validated

/-- The steps that it still needs. -/
def Node.actorEffort (n : Node) : Nat :=
  match n.stage, n.anchor with
  | .idle, _ => 3
  | .building _ _, none => 2
  | .building _ _, some _ => 1
  | .validating _ _ _, _ => 1

end Definitions

namespace ServingLemmas

/-! ## The engine side -/

section EngineSide

variable {s : App}

/-- The step takes `done` off the mailbox, and responds if it is a request. -/
def Serves (s s' : App) (arrived : List Message) (done : Option Message) : Prop :=
  s.outstanding ++ arrived = done.toList ++ s'.outstanding ∧
    s'.answers.map Answer.message =
      s.answers.map Answer.message ++ done.toList.filterMap Message.request

theorem serves_nothing {s' : App} (hstage : s'.stage = s.stage) (hanswers : s'.answers = s.answers)
    (hrecv : s'.receiver = s.receiver) : Serves s s' [] none := by
  refine ⟨?_, ?_⟩
  · rw [App.outstanding, App.outstanding, hstage, hrecv, List.append_nil]
    rfl
  · rw [hanswers]
    exact (List.append_nil _).symm

theorem serves_respond {msg : Message} {answer : Answer} {a : Actor}
    (hfront : s.outstanding = msg :: a.receiver) (hans : answer.message = msg) :
    Serves s (s.respond a answer) [] (some msg) := by
  refine ⟨?_, ?_⟩
  · rw [List.append_nil, hfront]
    rfl
  · rw [App.respond, List.map_append, List.map_singleton, hans, ← hans]
    cases answer with
    | proposed msg digest => rfl
    | verified msg valid => rfl

theorem serves_recv (s : App) (nowMillis : UInt64) :
    ∃ done, Serves s (s.step (.recv nowMillis)) [] done := by
  simp only [App.step]
  split
  · next msg rest hstage hrecv =>
    have hfront : s.outstanding = msg :: rest := by
      rw [App.outstanding, hstage, hrecv]
      rfl
    have hwait : ∀ s' : App, s'.stage.message = [msg] → s'.receiver = rest →
        s'.answers = s.answers → Serves s s' [] none := by
      intro s' hm hr ha
      refine ⟨?_, ?_⟩
      · rw [List.append_nil, hfront, App.outstanding, hm, hr]
        rfl
      · rw [ha]
        exact (List.append_nil _).symm
    cases msg with
    | propose msg =>
      simp only [App.receive]
      split
      · next a h =>
        have hr : a.receiver = rest := congrArg (fun p => p.1.receiver) h.symm
        exact ⟨_, serves_respond (hr ▸ hfront) rfl⟩
      · next a req h =>
        have hr : a.receiver = rest := congrArg (fun p => p.1.receiver) h.symm
        exact ⟨none, hwait _ rfl hr rfl⟩
    | verify msg =>
      have hlookup := Actor.verifyLookup_receiver { s.toActor with receiver := rest } msg
      simp only [App.receive]
      split
      · next a valid h =>
        have hr : a.receiver = rest := by
          rw [h] at hlookup
          exact hlookup
        exact ⟨_, serves_respond (hr ▸ hfront) rfl⟩
      · next a bytes ph h =>
        have hr : a.receiver = rest := by
          rw [h] at hlookup
          exact hlookup
        exact ⟨none, hwait _ rfl hr rfl⟩
    | broadcast msg =>
      -- only logged: it leaves the mailbox and gets no response
      refine ⟨some (.broadcast msg), ?_, (List.append_nil _).symm⟩
      rw [List.append_nil, hfront, App.outstanding]
      simp only [App.receive, hstage]
      rfl
  · exact ⟨none, serves_nothing rfl rfl rfl⟩

theorem serves_step (s : App) (ae : App.Event) (hne : ∀ msg, ae ≠ .enqueue msg) :
    ∃ done, Serves s (s.step ae) [] done := by
  cases ae with
  | enqueue msg => exact absurd rfl (hne msg)
  | recv nowMillis => exact serves_recv s nowMillis
  | built result =>
    simp only [App.step]
    split
    · next msg req hstage =>
      have hfront : s.outstanding = .propose msg :: s.receiver := by
        rw [App.outstanding, hstage]
        rfl
      cases result with
      | error reason => exact ⟨_, serves_respond hfront rfl⟩
      | ok payload => exact ⟨_, serves_respond hfront rfl⟩
    · exact ⟨none, serves_nothing rfl rfl rfl⟩
  | validated result =>
    simp only [App.step]
    split
    · next msg bytes ph hstage =>
      have hfront : s.outstanding = .verify msg :: (s.verifyRecord msg result).1.receiver := by
        rw [App.outstanding, hstage, Actor.verifyRecord_receiver]
        rfl
      exact ⟨_, serves_respond hfront rfl⟩
    · exact ⟨none, serves_nothing rfl rfl rfl⟩
  | blockMessage data =>
    exact ⟨none, serves_nothing rfl rfl (Actor.receiveBlock_frame s.toActor data).1⟩
  | blockChannelError => exact ⟨none, serves_nothing rfl rfl rfl⟩
  | broadcast digest plan transport =>
    obtain ⟨hstage, hanswers, hrecv⟩ := App.broadcast_frame s digest plan transport
    exact ⟨none, serves_nothing hstage hanswers hrecv⟩
  | report activity =>
    obtain ⟨hstage, hanswers, hrecv⟩ := App.report_frame s activity
    exact ⟨none, serves_nothing hstage hanswers hrecv⟩

end EngineSide

/-! ## The node -/

section Steps

variable {ρ : Type} {B : PayloadBuilder ρ} {n : Node} {e : Node.Event ρ}

theorem enqueued_singleton_of_ne (he : ∀ msg, e ≠ .enqueue msg) : enqueued [e] = [] := by
  have h : enqueued ([] ++ [e]) = enqueued [] := enqueued_concat_of_ne he
  exact h

theorem node_serves_step (n : Node) (e : Node.Event ρ) :
    ∃ done, Serves n.toApp (n.step B e).toApp (enqueued [e]) done := by
  by_cases he : ∃ msg, e = .enqueue msg
  · obtain ⟨msg, rfl⟩ := he
    refine ⟨none, ?_, (List.append_nil _).symm⟩
    exact List.append_assoc n.stage.message n.receiver [msg]
  · have hne : ∀ msg, e ≠ .enqueue msg := fun msg hm => he ⟨msg, hm⟩
    rw [enqueued_singleton_of_ne hne]
    rcases toApp_step (B := B) n e with hs | ⟨ae, hae, hs⟩
    · rw [hs]
      exact ⟨none, serves_nothing rfl rfl rfl⟩
    · rw [hs]
      refine serves_step n.toApp ae ?_
      rintro msg rfl
      cases hae
      exact hne msg rfl

/-- A message that is outstanding was so before the step, or the step enqueues it. -/
theorem mem_outstanding_step {msg : Message} (h : msg ∈ (n.step B e).outstanding) :
    msg ∈ n.outstanding ∨ e = .enqueue msg := by
  obtain ⟨done, hdone, -⟩ := node_serves_step (B := B) n e
  have hall : msg ∈ n.outstanding ++ enqueued [e] := by
    rw [hdone]
    exact List.mem_append_right _ h
  rcases List.mem_append.mp hall with hold | hnew
  · exact .inl hold
  · cases e with
    | enqueue msg' =>
      cases List.mem_singleton.mp hnew
      exact .inr rfl
    | _ => exact absurd hnew List.not_mem_nil

/-- What is not a step of a handler leaves the handler where it is. -/
theorem handler_frame (htask : e.actorTask = none) :
    (n.step B e).stage = n.stage ∧ (n.step B e).anchor = n.anchor := by
  cases e with
  | recv | buildFcu | built | validated => cases htask
  | enqueue msg => exact ⟨rfl, rfl⟩
  | blockMessage data => exact ⟨rfl, rfl⟩
  | blockChannelError => exact ⟨rfl, rfl⟩
  | broadcast digest plan transport =>
    exact ⟨(App.broadcast_frame n.toApp digest plan transport).1, rfl⟩
  | report activity =>
    have hstage := (App.report_frame n.toApp activity).1
    simp only [Node.step, forward]
    split
    · exact ⟨hstage, rfl⟩
    · split
      · exact ⟨hstage, rfl⟩
      · exact ⟨hstage, rfl⟩
  | finalizerRecv =>
    simp only [Node.step]
    split
    · unfold finalizeStart
      split
      · exact ⟨rfl, rfl⟩
      · split
        · exact ⟨rfl, rfl⟩
        · exact ⟨rfl, rfl⟩
    · exact ⟨rfl, rfl⟩
  | finalizerAnswer result =>
    simp only [Node.step]
    split
    · unfold finalizeFinish
      split
      · split
        · exact ⟨rfl, rfl⟩
        · exact ⟨rfl, rfl⟩
      · exact ⟨rfl, rfl⟩
    · exact ⟨rfl, rfl⟩

/-- The step brings the oldest message forward, or it is not what that one needs
and leaves the handler where it is. -/
def Forward (B : PayloadBuilder ρ) (n : Node) (e : Node.Event ρ) : Prop :=
  (n.step B e).outstanding.length < n.outstanding.length + (enqueued [e]).length ∨
    (n.step B e).actorEffort < n.actorEffort ∨
    ((n.step B e).actorEffort = n.actorEffort ∧ (n.step B e).actorNeeds = n.actorNeeds ∧
      e.actorTask ≠ some n.actorNeeds)

theorem forward_of_still (hs : n.step B e = n) (htask : e.actorTask ≠ some n.actorNeeds) :
    Forward B n e := by
  rw [Forward, hs]
  exact .inr (.inr ⟨rfl, rfl, htask⟩)

theorem forward_recv (nowMillis : UInt64) (hw : n.outstanding ≠ []) :
    Forward B n (.recv nowMillis) := by
  cases hstage : n.stage with
  | idle =>
    have hout : n.outstanding = n.receiver := by
      rw [App.outstanding, hstage]
      rfl
    obtain ⟨msg, rest, hrecv⟩ := List.exists_cons_of_ne_nil (hout ▸ hw)
    have hstep : (n.step B (.recv nowMillis)).toApp =
        App.receive { n.toApp with receiver := rest } nowMillis msg := by
      simp only [Node.step, appStep, appEvent, App.step, hstage, hrecv]
    have hr := App.receive_receiver { n.toApp with receiver := rest } nowMillis msg
    rcases App.receive_stage { n.toApp with receiver := rest } nowMillis msg hstage with hs | hs
    · -- answered at once
      refine .inl ?_
      rw [hstep, App.outstanding, hs, hr, hout, hrecv]
      exact Nat.lt_succ_self _
    · -- the handler waits for the builder
      refine .inr (.inl ?_)
      have heffort : n.actorEffort = 3 := by rw [actorEffort, hstage]
      rw [heffort, actorEffort, hstep]
      split
      · next hidle =>
        rw [hidle] at hs
        cases hs
      · decide
      · decide
      · decide
  | building msg req =>
    refine forward_of_still ?_ ?_
    · simp only [Node.step, appStep, appEvent, App.step, hstage]
    · rw [actorNeeds, hstage]
      cases n.anchor <;> rintro ⟨⟩
  | validating msg bytes ph =>
    refine forward_of_still ?_ ?_
    · simp only [Node.step, appStep, appEvent, App.step, hstage]
    · rw [actorNeeds, hstage]
      rintro ⟨⟩

theorem forward_buildFcu : Forward B n .buildFcu := by
  cases hstage : n.stage with
  | building msg req =>
    cases hanchor : n.anchor with
    | none =>
      refine .inr (.inl ?_)
      simp only [actorEffort, Node.step, hstage, hanchor]
      exact Nat.lt_succ_self 1
    | some finalized =>
      refine forward_of_still ?_ ?_
      · simp only [Node.step, hstage, hanchor]
      · rw [actorNeeds, hstage, hanchor]
        rintro ⟨⟩
  | idle | validating =>
    refine forward_of_still ?_ ?_
    · simp only [Node.step, hstage]
    · rw [actorNeeds, hstage]
      rintro ⟨⟩

theorem forward_built (env : ρ) : Forward B n (.built env) := by
  cases hstage : n.stage with
  | building msg req =>
    cases hanchor : n.anchor with
    | some finalized =>
      -- the handler ends
      refine .inl ?_
      have hout : n.outstanding = .propose msg :: n.receiver := by
        rw [App.outstanding, hstage]
        rfl
      simp only [Node.step, appStep, appEvent, hstage, hanchor, App.step, hout]
      cases B.buildPayload env finalized req with
      | error reason => exact Nat.lt_succ_self _
      | ok payload => exact Nat.lt_succ_self _
    | none =>
      refine forward_of_still ?_ ?_
      · simp only [Node.step, appStep, appEvent, hstage, hanchor]
      · rw [actorNeeds, hstage, hanchor]
        rintro ⟨⟩
  | idle | validating =>
    refine forward_of_still ?_ ?_
    · simp only [Node.step, appStep, appEvent, hstage]
    · rw [actorNeeds, hstage]
      rintro ⟨⟩

theorem forward_validated (env : ρ) : Forward B n (.validated env) := by
  cases hstage : n.stage with
  | validating msg bytes ph =>
    refine .inl ?_
    have hout : n.outstanding = .verify msg :: n.receiver := by
      rw [App.outstanding, hstage]
      rfl
    have hrecv := Actor.verifyRecord_receiver n.toActor msg (B.validateBlock env bytes ph)
    have hout' : (n.step B (.validated env)).outstanding = n.receiver := by
      simp only [Node.step, appStep, appEvent, hstage, App.step]
      exact hrecv
    rw [hout, hout']
    exact Nat.lt_succ_self _
  | building msg req =>
    refine forward_of_still ?_ ?_
    · simp only [Node.step, appStep, appEvent, hstage]
    · rw [actorNeeds, hstage]
      cases n.anchor <;> rintro ⟨⟩
  | idle =>
    refine forward_of_still ?_ ?_
    · simp only [Node.step, appStep, appEvent, hstage]
    · rw [actorNeeds, hstage]
      rintro ⟨⟩

theorem forward_step (e : Node.Event ρ) (hw : n.outstanding ≠ []) : Forward B n e := by
  cases htask : e.actorTask with
  | none =>
    obtain ⟨hstage, hanchor⟩ := handler_frame (B := B) (n := n) htask
    refine .inr (.inr ⟨?_, ?_, by rw [htask]; rintro ⟨⟩⟩)
    · rw [actorEffort, actorEffort, hstage, hanchor]
    · rw [actorNeeds, actorNeeds, hstage, hanchor]
  | some task =>
    cases e with
    | recv nowMillis => exact forward_recv nowMillis hw
    | buildFcu => exact forward_buildFcu
    | built env => exact forward_built env
    | validated env => exact forward_validated env
    | _ => cases htask

theorem actorEffort_bounds (n : Node) : 0 < n.actorEffort ∧ n.actorEffort ≤ 3 := by
  unfold actorEffort
  split <;> decide

end Steps

/-- The actor at its mailbox. -/
def actorWorker {ρ : Type} (B : PayloadBuilder ρ) :
    Worker (Node.step B) Message Message ActorTask where
  good := fun _ => True
  waiting := fun n => n.outstanding
  arrives := fun _ e => enqueued [e]
  receipts := fun n => n.answers.map Answer.message
  receipt := Message.request
  good_step := fun _ _ => trivial
  law := fun e _ => (node_serves_step _ e).imp' Option.toList fun _ h => h
  kind := Node.Event.actorTask
  needs := Node.actorNeeds
  effort := Node.actorEffort
  cap := 3
  effort_bounds := fun {n} _ _ => actorEffort_bounds n
  progress := fun e _ hw => forward_step e hw

theorem trace_arrives {ρ : Type} {B : PayloadBuilder ρ} (n : Node) (es : List (Node.Event ρ)) :
    trace (Node.step B) (actorWorker B).arrives n es = enqueued es := by
  induction es generalizing n with
  | nil => rfl
  | cons e es ih =>
    rw [trace, ih]
    exact List.filterMap_append.symm

end ServingLemmas

open ServingLemmas

/-- In every run of a node, with any payload builder: the requests that the engine
has enqueued are the ones that got a response, once each and in their order,
followed by the ones that are outstanding. -/
theorem requests_answered_in_order {ρ : Type} (B : PayloadBuilder ρ) (validators : ValidatorSet)
    (metrics : Option ConsensusMetrics) (g : GenesisInfo) (senders : Nat)
    (es : List (Node.Event ρ)) :
    let n := run (Node.step B) (Node.new validators metrics g senders) es
    (enqueued es).filterMap Message.request =
      n.answers.map Answer.message ++ n.outstanding.filterMap Message.request := by
  obtain ⟨done, hdone, hreceipts⟩ :=
    (actorWorker B).account (s := Node.new validators metrics g senders) trivial es
  rw [trace_arrives] at hdone
  have hall : enqueued es = done ++ (actorWorker B).waiting _ := hdone
  rw [hall, List.filterMap_append]
  exact congrArg (· ++ _) hreceipts.symm

/-- However a run goes on, and whatever the engine keeps enqueuing: a schedule with
three rounds for each message that is outstanding answers all the requests
enqueued so far, in their order. A round has a step of each of the actor's tasks,
in any order and with any other steps in between. -/
theorem outstanding_requests_answered {ρ : Type} (B : PayloadBuilder ρ)
    (validators : ValidatorSet) (metrics : Option ConsensusMetrics) (g : GenesisInfo)
    (senders : Nat) (es es' : List (Node.Event ρ)) (k : Nat)
    (hk : 3 * (run (Node.step B) (Node.new validators metrics g senders) es).outstanding.length ≤ k)
    (hrounds : Rounds Node.Event.actorTask k es') :
    (enqueued es).filterMap Message.request <+:
      (run (Node.step B) (Node.new validators metrics g senders) (es ++ es')).answers.map
        Answer.message := by
  have hpre := Worker.receipts_after_rounds (w := actorWorker B)
    (s := run (Node.step B) (Node.new validators metrics g senders) es) trivial hk hrounds
  rw [← run_append] at hpre
  have hreq := requests_answered_in_order B validators metrics g senders es
  rw [hreq]
  exact hpre

/-- A round in which every task of the actor takes a step. -/
def taskRound : List (Node.Event (Reth sampleAlloy)) :=
  [.recv 11000, .buildFcu, .built (sampleReth .one), .validated (sampleReth .one)]

theorem taskRound_tasks : ∀ task, ∃ e ∈ taskRound, e.actorTask = some task
  | .recv => ⟨.recv 11000, by simp [taskRound], rfl⟩
  | .buildFcu => ⟨.buildFcu, by simp [taskRound], rfl⟩
  | .built => ⟨.built (sampleReth .one), by simp [taskRound], rfl⟩
  | .validated => ⟨.validated (sampleReth .one), by simp [taskRound], rfl⟩

theorem two_requests_answered :
    let es := [.enqueue (.propose (samplePropose .EMPTY 1)),
      .enqueue (.verify (sampleVerify .EMPTY SampleHeader.one.digest 1))]
    [Message.propose (samplePropose .EMPTY 1),
        .verify (sampleVerify .EMPTY SampleHeader.one.digest 1)] <+:
      (run (Node.step (createEnginePayloadBuilder sampleAlloy))
        (Node.new sampleValidators none sampleGenesisInfo 1)
        (es ++ (List.replicate 6 taskRound).flatten)).answers.map Answer.message :=
  outstanding_requests_answered (createEnginePayloadBuilder sampleAlloy) sampleValidators none
    sampleGenesisInfo 1 [.enqueue (.propose (samplePropose .EMPTY 1)),
      .enqueue (.verify (sampleVerify .EMPTY SampleHeader.one.digest 1))] _ 6 (by decide)
    (rounds_replicate taskRound_tasks 6)

end Allegro
