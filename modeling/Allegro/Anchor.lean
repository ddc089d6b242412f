import Allegro.HonestStores
import Mathlib.Logic.Relation

/-!
# The anchor of a build is an ancestor of its head

A build submits a forkchoice update whose head is the parent and whose safe and
finalized hash is what the tracker holds. The finalizer moves the tracker
concurrently, and may learn of finalizations later than the view of a `Propose`
that waits in the mailbox. Still the tracker is never ahead of the head: the
finalizer resolves only digests that are recorded, the actor records a digest
only when it finishes a message for it, and it finishes messages in the order of
their views.

Results:
1. `served_step`: every record other than genesis is for a message that the actor
   has finished.
2. `anchored_step`: what the tracker holds is genesis or a recorded block that
   was reported as finalized.
3. `build_anchor_is_ancestor`: with the engine's messages in the order of their
   views, and a `Propose` strictly after every message of its own view or an
   earlier one, every build is anchored at genesis or at an ancestor of its head.
4. `second_propose_of_view_loses_anchor`: without the strict order it is not.
-/

namespace Allegro

open Run Node Relation

/-! ## The environment -/

section Definitions

def Message.view : Message → Option UInt64
  | .propose msg => some msg.round.view
  | .verify msg => some msg.round.view
  | .broadcast _ => none

/-- Messages in non-decreasing view order. -/
def InOrder (m m' : Message) : Prop :=
  ∀ v v', m.view = some v → m'.view = some v' → v ≤ v'

/-- Messages in non-decreasing view order, with a `Propose` strictly after what
comes before it. -/
def ProposesAhead (m m' : Message) : Prop :=
  InOrder m m' ∧ ∀ msg v, m' = .propose msg → m.view = some v → v < msg.round.view

variable {A : Alloy}

/-- The hash of the block that a digest stands for. -/
def Config.hashOf (c : Config A) (d : Digest) : B256 :=
  if d = Digest.EMPTY then A.hashSlow c.genesis.header else d.get

variable (A) in
/-- The block `child` names `parent` as its parent. -/
def ExecParent (parent child : B256) : Prop :=
  ∃ h, A.hashSlow h = child ∧ A.parentHash h = parent

/-- What is assumed of the environment of a run. `Parent` is the parent relation
of consensus and `viewOf` the one view that a digest is proposed in. -/
structure Environment (c : Config A) (es : List (Node.Event (Reth A)))
    (Order : Message → Message → Prop) (viewOf : Digest → UInt64)
    (Parent : Digest → Digest → Prop) : Prop where
  reth : ∀ e ∈ es, ∀ reth, e.env = some reth → reth.BuildsOnHead
  /-- Bytes on the block channel are the block with the hash they come under. -/
  honest : ∀ data, .blockMessage data ∈ es → HonestMessage A data
  /-- A block extends its consensus parent. For own blocks this is proved. -/
  extending : ∀ p d, Parent p d → ExecParent A (c.hashOf p) (c.hashOf d) ∨
    ∃ msg, .proposed msg (some d) ∈ (run (prodStep A) (Node.start c) es).answers ∧
      msg.parent.2 = p
  order : (enqueued es).Pairwise Order
  verified : ∀ msg, .verify msg ∈ enqueued es → viewOf msg.payload = msg.round.view
  proposed : ∀ msg d, .proposed msg (some d) ∈ (run (prodStep A) (Node.start c) es).answers →
    viewOf d = msg.round.view
  /-- Simplex safety. -/
  safety : ∀ msg, .propose msg ∈ enqueued es → ∀ f ∈ reported es, viewOf f < msg.round.view →
    ReflTransGen Parent f msg.parent.2

end Definitions

/-! ## The mailbox -/

/-- Every message enqueued is finished or outstanding, and every record other
than that of genesis is for a message that is finished. -/
def Served {ρ : Type} (es : List (Node.Event ρ)) (n : Node) : Prop :=
  ∃ finished, enqueued es = finished ++ n.outstanding ∧
    ∀ d i, d ≠ Digest.EMPTY → n.info d = some i →
      ∃ msg ∈ finished, Message.Names n.answers d msg

namespace AnchorLemmas

section Mailbox

variable {ρ : Type} {B : PayloadBuilder ρ} {n : Node} {es : List (Node.Event ρ)}
  {e : Node.Event ρ}

theorem names_mono {answers answers' : List Answer} {d : Digest} {msg : Message}
    (hsub : ∀ a ∈ answers, a ∈ answers') (h : Message.Names answers d msg) :
    Message.Names answers' d msg := by
  cases msg with
  | propose msg => exact hsub _ h
  | verify msg => exact h
  | broadcast msg => exact h

theorem served_step (h : Served es n) : Served (es ++ [e]) (n.step B e) := by
  obtain ⟨finished, hq, hrec⟩ := h
  by_cases he : ∃ msg, e = .enqueue msg
  · obtain ⟨msg, rfl⟩ := he
    refine ⟨finished, ?_, hrec⟩
    have hout : (n.step B (.enqueue msg)).outstanding = n.outstanding ++ [msg] :=
      (List.append_assoc _ _ _).symm
    rw [hout, enqueued_concat, hq, List.append_assoc]
  · have hne : ∀ msg, e ≠ .enqueue msg := fun msg hm => he ⟨msg, hm⟩
    rw [Served, enqueued_concat_of_ne hne, hq]
    rcases toApp_step (B := B) n e with hs | ⟨ae, hae, hs⟩
    · rw [hs]
      exact ⟨finished, rfl, hrec⟩
    · rw [hs]
      rcases App.outstanding_step n.toApp ae with ⟨msg, rfl, _⟩ | ⟨_, more, hout, hnew⟩
      · cases hae
        exact absurd rfl (hne msg)
      · refine ⟨finished ++ more, by rw [hout, List.append_assoc], fun d i hd hi => ?_⟩
        rcases App.info_step_cases hi with hold | hwrites
        · obtain ⟨msg, hmem, hnames⟩ := hrec d i hd hold
          exact ⟨msg, List.mem_append_left _ hmem,
            names_mono (fun a ha => App.answers_step_mono ae ha) hnames⟩
        · obtain ⟨msg, hmem, hnames⟩ := hnew d i hwrites
          exact ⟨msg, List.mem_append_right _ hmem, hnames⟩

theorem served_start {A : Alloy} (c : Config A) :
    Served ([] : List (Node.Event ρ)) (Node.start c) :=
  ⟨[], rfl, fun _ _ hd hi => absurd (App.info_new hi).1 hd⟩

end Mailbox

/-! ## Records and own blocks -/

section Records

variable {A : Alloy} {c : Config A} {n : Node} {e : Node.Event (Reth A)}

theorem Config.hashOf_of_ne {d : Digest} (hd : d ≠ Digest.EMPTY) : c.hashOf d = d.get :=
  if_neg hd

/-- With an honest block channel, every record holds the hash its digest stands
for, and every own proposal extends its consensus parent. -/
structure Bound (c : Config A) (n : Node) : Prop where
  stores : HonestStores A n
  request : n.RequestCurrent
  binds : ∀ d i, n.info d = some i → i.hash = c.hashOf d
  own : ∀ msg d, .proposed msg (some d) ∈ n.answers →
    ExecParent A (c.hashOf msg.parent.2) (c.hashOf d)

theorem bound_start (c : Config A) : Bound c (Node.start c) where
  stores := honestStores_start c
  request := App.requestCurrent_new _ _ _
  binds := by
    intro d i hi
    obtain ⟨rfl, rfl⟩ := App.info_new hi
    exact (if_pos rfl).symm
  own := fun _ _ h => (nomatch h)

theorem ne_empty_of_hash (hz : A.NonZero) {h : A.Header} {d : Digest}
    (hh : A.hashSlow h = d.get) : d ≠ Digest.EMPTY := by
  rintro rfl
  exact hz h hh

/-- The parent hash of the request the actor waits on. -/
theorem request_parentHash (h : Bound c n) {msg : Propose} {req : BuildPayloadRequest}
    (hstage : n.stage = .building msg req) :
    (n.info msg.parent.2 = none ∧ req.parentHash = B256.ZERO) ∨
      req.parentHash = c.hashOf msg.parent.2 := by
  obtain ⟨nowMillis, rfl⟩ := h.request msg req hstage
  simp only [Actor.buildRequest, Actor.parentOf]
  cases hp : n.blockInfo.value.lookup msg.parent.2 with
  | none => exact .inl ⟨hp, rfl⟩
  | some p => exact .inr (h.binds _ _ hp)

/-- A block this node built extends the parent it was asked for: reth does not
build on the zero hash that stands for an unknown parent. -/
theorem own_of_built (hz : A.NonZero) (h : Bound c n) {msg : Propose} {req : BuildPayloadRequest}
    {reth : Reth A} {finalized : Finalized} {payload : BuiltPayload}
    (hstage : n.stage = .building msg req) (hreth : reth.BuildsOnHead)
    (hb : buildClosure A reth finalized req = .ok payload) :
    ExecParent A (c.hashOf msg.parent.2) (c.hashOf ⟨payload.blockHash⟩) := by
  obtain ⟨block, hjob, rfl⟩ := buildClosure_ok hb
  obtain ⟨hhead, hparent, _⟩ := hreth _ _ _ hjob
  have hreq : req.parentHash = c.hashOf msg.parent.2 := by
    rcases request_parentHash h hstage with ⟨_, hzero⟩ | hreq
    · exact absurd hzero hhead
    · exact hreq
  have hne : (⟨A.hashSlow block.header⟩ : Digest) ≠ Digest.EMPTY := ne_empty_of_hash hz rfl
  exact ⟨block.header, (Config.hashOf_of_ne hne).symm, hparent.trans hreq⟩

theorem bound_step (hz : A.NonZero) (hr : A.RoundTrips) (h : Bound c n)
    (hreth : ∀ reth, e.env = some reth → reth.BuildsOnHead)
    (hmsg : ∀ data, e = .blockMessage data → HonestMessage A data) : Bound c (n.prodStep A e) where
  stores := honestStores_step h.stores hmsg
  request := Node.requestCurrent_step e h.request
  binds := by
    intro d i hi
    rcases Node.info_step_cases hi with hold | hrec
    · exact h.binds d i hold
    · obtain ⟨hdr, hhash, ⟨_, hih, _⟩, _⟩ := header_of_records hr h.stores hrec
      rw [Config.hashOf_of_ne (ne_empty_of_hash hz hhash), hih, hhash]
  own := by
    intro msg d hmem
    rcases Node.mem_answers_step hmem with hold | ⟨ae, hae, _, hnew⟩
    · exact h.own msg d hold
    · cases hnew with
      | proposed hstage =>
        obtain ⟨reth, finalized, rfl, _, hb⟩ := drives_built hae hstage
        exact own_of_built hz h hstage (hreth reth rfl) hb

end Records

/-! ## The finalizer -/

section Finalizer

variable {A : Alloy} {c : Config A} {n : Node} {es : List (Node.Event (Reth A))}
  {e : Node.Event (Reth A)}

/-- The finalizer works on reported digests. What it submits and what the tracker
holds are recorded blocks among them, or genesis. -/
structure Anchored (c : Config A) (es : List (Node.Event (Reth A))) (n : Node) : Prop where
  sink : ∀ f ∈ n.sink.items, f ∈ reported es
  submitting : ∀ f hash number, n.finalizer = .submitting f hash number →
    f ∈ reported es ∧ (n.info f).isSome ∧ hash = c.hashOf f
  tracker : n.tracker.finalized.1 = c.hashOf Digest.EMPTY ∨
    ∃ f ∈ reported es, (n.info f).isSome ∧ n.tracker.finalized.1 = c.hashOf f

theorem anchored_start (c : Config A) : Anchored c [] (Node.start c) where
  sink := fun _ h => (nomatch h)
  submitting := fun _ _ _ h => (nomatch h)
  tracker := .inl (if_pos rfl).symm

theorem anchored_step (hb : Bound c n) (h : Anchored c es n) :
    Anchored c (es ++ [e]) (n.prodStep A e) := by
  have hinfo : ∀ f, (n.info f).isSome → ((n.prodStep A e).info f).isSome :=
    fun f => Node.info_step_isSome e
  have hrep : ∀ {f}, f ∈ reported es → f ∈ reported (es ++ [e]) :=
    reported_subset (List.prefix_append es [e])
  -- what does not move is as it was, with more reports and more records
  have hsink : ∀ f ∈ n.sink.items, f ∈ reported (es ++ [e]) :=
    fun f hf => hrep (h.sink f hf)
  have htracker : n.tracker.finalized.1 = c.hashOf Digest.EMPTY ∨
      ∃ f ∈ reported (es ++ [e]), ((n.prodStep A e).info f).isSome ∧
        n.tracker.finalized.1 = c.hashOf f := by
    rcases h.tracker with hg | ⟨f, hf, hi, hh⟩
    · exact .inl hg
    · exact .inr ⟨f, hrep hf, hinfo f hi, hh⟩
  have hsub : ∀ f hash number, n.finalizer = .submitting f hash number →
      f ∈ reported (es ++ [e]) ∧ ((n.prodStep A e).info f).isSome ∧ hash = c.hashOf f := by
    intro f hash number hf
    obtain ⟨hf', hi, hh⟩ := h.submitting f hash number hf
    exact ⟨hrep hf', hinfo f hi, hh⟩
  cases moves_step (B := createEnginePayloadBuilder A) n e with
  | quiet _ ht hs hf _ | buildFcu _ _ ht hs hf _ | dropped _ _ ht hs hf _ =>
    exact ⟨by rw [hs]; exact hsink, by rw [hf]; exact hsub, by rw [ht]; exact htracker⟩
  | forwarded ha hq ht hs hf _ =>
    refine ⟨?_, by rw [hf]; exact hsub, by rw [ht]; exact htracker⟩
    rw [hs, (Fifo.trySend_eq_some hq).2.1]
    intro f hmem
    rcases List.mem_append.mp hmem with hold | hnew
    · exact hsink f hold
    · rw [List.mem_singleton.mp hnew]
      exact mem_reported ha
  | poisoned _ hq _ ht hs hf _ | notFound _ hq _ ht hs hf _ =>
    refine ⟨?_, by rw [hf]; exact fun _ _ _ hm => (nomatch hm), by rw [ht]; exact htracker⟩
    rw [hs]
    intro f hmem
    refine hsink f ?_
    rw [(Fifo.next_eq_some hq).1]
    exact List.mem_cons_of_mem _ hmem
  | submitted _ hq hi ht hs hf _ =>
    have hitems := (Fifo.next_eq_some hq).1
    refine ⟨?_, ?_, by rw [ht]; exact htracker⟩
    · rw [hs]
      intro f hmem
      refine hsink f ?_
      rw [hitems]
      exact List.mem_cons_of_mem _ hmem
    · rw [hf]
      intro f hash number hm
      cases hm
      refine ⟨hsink _ ?_, hinfo _ (Option.isSome_iff_exists.mpr ⟨_, hi⟩), hb.binds _ _ hi⟩
      rw [hitems]
      exact List.mem_cons_self
  | finalized hm _ ht hs hf _ =>
    refine ⟨by rw [hs]; exact hsink, by rw [hf]; exact fun _ _ _ hm => (nomatch hm), ?_⟩
    obtain ⟨hrep, hi, hh⟩ := hsub _ _ _ hm
    rw [ht]
    exact .inr ⟨_, hrep, hi, hh⟩
  | failed hm _ ht hs hf _ =>
    exact ⟨by rw [hs]; exact hsink, by rw [hf]; exact fun _ _ _ hm => (nomatch hm),
      by rw [ht]; exact htracker⟩

end Finalizer

/-! ## Runs -/

section Runs

variable {A : Alloy} {c : Config A} {es es₁ : List (Node.Event (Reth A))}
  {Order : Message → Message → Prop} {viewOf : Digest → UInt64} {Parent : Digest → Digest → Prop}

/-- The assumptions on the steps hold of every prefix of the run. -/
theorem bound_run (hz : A.NonZero) (hr : A.RoundTrips)
    (henv : Environment c es Order viewOf Parent) (hpre : es₁ <+: es) :
    Bound c (run (prodStep A) (Node.start c) es₁) := by
  have hC : Along (prodStep A) (fun _ e => e ∈ es) (Node.start c) es₁ :=
    along_of_forall fun e he => hpre.subset he
  refine hC.invariant (P := Bound c) (fun n e hn he => ?_) (bound_start c)
  refine bound_step hz hr hn (henv.reth e he) fun data hdata => henv.honest data ?_
  rw [← hdata]
  exact he

theorem served_run (c : Config A) (es : List (Node.Event (Reth A))) :
    Served es (run (prodStep A) (Node.start c) es) :=
  trace_invariant (prodStep A) (Node.start c) (P := Served) (served_start c)
    (fun _ _ h => served_step h) es

theorem anchored_run (hz : A.NonZero) (hr : A.RoundTrips)
    (henv : Environment c es Order viewOf Parent) (hpre : es₁ <+: es) :
    Anchored c es₁ (run (prodStep A) (Node.start c) es₁) := by
  refine trace_invariant (prodStep A) (Node.start c)
    (P := fun es₁ n => es₁ <+: es → Anchored c es₁ n) (fun _ => anchored_start c) ?_ es₁ hpre
  intro es₂ e ih hpre₂
  have hpre' : es₂ <+: es := (List.prefix_append es₂ [e]).trans hpre₂
  exact anchored_step (bound_run hz hr henv hpre') (ih hpre')

theorem answers_at_end {a : Answer} (hpre : es₁ <+: es)
    (h : a ∈ (run (prodStep A) (Node.start c) es₁).answers) :
    a ∈ (run (prodStep A) (Node.start c) es).answers := by
  obtain ⟨es₂, rfl⟩ := hpre
  rw [run_append]
  exact run_invariant (P := fun n : Node => a ∈ n.answers) (fun _ e hn => answers_step_mono e hn)
    h es₂

/-- A consensus chain is an execution chain. -/
theorem exec_of_consensus (hz : A.NonZero) (hr : A.RoundTrips)
    (henv : Environment c es Order viewOf Parent) {p d : Digest} (h : ReflTransGen Parent p d) :
    ReflTransGen (ExecParent A) (c.hashOf p) (c.hashOf d) := by
  refine h.lift c.hashOf fun p d hpd => ?_
  rcases henv.extending p d hpd with hexec | ⟨msg, hans, rfl⟩
  · exact hexec
  · exact (bound_run hz hr henv (List.prefix_refl es)).own msg d hans

/-- When the actor works on a `Propose`, every record other than genesis is for
a digest of an earlier view. -/
theorem viewOf_lt_of_recorded (henv : Environment c es ProposesAhead viewOf Parent)
    (hpre : es₁ <+: es) {msg : Propose} {req : BuildPayloadRequest}
    (hstage : (run (prodStep A) (Node.start c) es₁).stage = .building msg req) {f : Digest}
    {i : BlockInfo} (hf : f ≠ Digest.EMPTY)
    (hi : (run (prodStep A) (Node.start c) es₁).info f = some i) :
    .propose msg ∈ enqueued es ∧ viewOf f < msg.round.view := by
  obtain ⟨finished, hq, hrec⟩ := served_run c es₁
  obtain ⟨m, hm, hnames⟩ := hrec f i hf hi
  -- the mailbox: finished messages, the `Propose`, and the rest
  have hq' : enqueued es₁ =
      finished ++ .propose msg :: (run (prodStep A) (Node.start c) es₁).receiver := by
    rw [hq, App.outstanding, hstage]
    rfl
  have hsub : enqueued es₁ <+: enqueued es := enqueued_grows hpre
  have hmem : ∀ x ∈ enqueued es₁, x ∈ enqueued es := fun x hx => hsub.subset hx
  have hahead : ProposesAhead m (.propose msg) := by
    have hpair := henv.order.sublist hsub.sublist
    rw [hq'] at hpair
    exact (List.pairwise_append.mp hpair).2.2 m hm _ List.mem_cons_self
  refine ⟨hmem _ (by rw [hq']; simp), ?_⟩
  cases m with
  | propose own =>
    rw [henv.proposed own f (answers_at_end hpre hnames)]
    exact hahead.2 msg _ rfl rfl
  | verify v =>
    have hv : viewOf f = v.round.view := by
      rw [← hnames]
      exact henv.verified v (hmem _ (by rw [hq']; exact List.mem_append_left _ hm))
    rw [hv]
    exact hahead.2 msg _ rfl rfl
  | broadcast b => exact absurd hnames id

end Runs

end AnchorLemmas

open AnchorLemmas

/-- For any interleaving of the actor with the finalizer: every build forkchoice
update for a `Propose` with a recorded parent has a finalized hash, which is also
its safe hash, that is the genesis hash or the hash of an ancestor of the head or
of the head itself. -/
theorem build_anchor_is_ancestor {A : Alloy} (hz : A.NonZero) (hr : A.RoundTrips) (c : Config A)
    (es : List (Node.Event (Reth A))) (viewOf : Digest → UInt64) (Parent : Digest → Digest → Prop)
    (henv : Environment c es ProposesAhead viewOf Parent) {es₁ es₂ : List (Node.Event (Reth A))}
    (hes : es = es₁ ++ .buildFcu :: es₂) {msg : Propose} {fcs : ForkchoiceState}
    (hsub : (run (prodStep A) (Node.start c) (es₁ ++ [.buildFcu])).log =
      (run (prodStep A) (Node.start c) es₁).log ++ [.buildFcu msg fcs])
    (hp : ((run (prodStep A) (Node.start c) es₁).info msg.parent.2).isSome) :
    fcs.safeBlockHash = fcs.finalizedBlockHash ∧
      (fcs.finalizedBlockHash = A.hashSlow c.genesis.header ∨
        ReflTransGen (ExecParent A) fcs.finalizedBlockHash fcs.headBlockHash) := by
  have hpre : es₁ <+: es := ⟨_, hes.symm⟩
  rw [run_concat] at hsub
  obtain ⟨req, hstage, rfl⟩ : ∃ req,
      (run (prodStep A) (Node.start c) es₁).stage = .building msg req ∧
      fcs = buildForkchoice (run (prodStep A) (Node.start c) es₁).tracker.finalized req := by
    cases moves_step (B := createEnginePayloadBuilder A)
      (run (prodStep A) (Node.start c) es₁) .buildFcu with
    | quiet _ _ _ _ hl =>
      rw [hl] at hsub
      simp at hsub
    | buildFcu hstage _ _ _ _ hl =>
      rw [hl] at hsub
      simp only [List.append_cancel_left_eq, List.cons.injEq, Output.buildFcu.injEq, and_true]
        at hsub
      obtain ⟨rfl, rfl⟩ := hsub
      exact ⟨_, hstage, rfl⟩
  refine ⟨rfl, ?_⟩
  have hhead : req.parentHash = c.hashOf msg.parent.2 := by
    rcases request_parentHash (bound_run hz hr henv hpre) hstage with ⟨hnone, _⟩ | hreq
    · rw [hnone] at hp
      cases hp
    · exact hreq
  rcases (anchored_run hz hr henv hpre).tracker with hg | ⟨f, hf, hi, hh⟩
  · exact .inl (hg.trans (if_pos rfl))
  · by_cases hfe : f = Digest.EMPTY
    · subst hfe
      exact .inl (hh.trans (if_pos rfl))
    · obtain ⟨i, hi⟩ := Option.isSome_iff_exists.mp hi
      obtain ⟨henq, hview⟩ := viewOf_lt_of_recorded henv hpre hstage hfe hi
      have hchain := exec_of_consensus hz hr henv
        (henv.safety msg henq f (reported_subset hpre hf) hview)
      refine .inr ?_
      simp only [buildForkchoice]
      rw [hh, hhead]
      exact hchain

/-! ## Two runs -/

/-- The parent relation of the small chain. -/
def SampleParent (p d : Digest) : Prop :=
  (p = .EMPTY ∧ d = SampleHeader.one.digest) ∨
    (p = SampleHeader.one.digest ∧ d = SampleHeader.two.digest)

theorem sampleParent_extends {p d : Digest} (h : SampleParent p d) :
    ExecParent sampleAlloy (sampleConfig.hashOf p) (sampleConfig.hashOf d) := by
  rcases h with ⟨rfl, rfl⟩ | ⟨rfl, rfl⟩
  · exact ⟨.one, by decide, by decide⟩
  · exact ⟨.two, by decide, by decide⟩

theorem honestMessage_of_header (h : SampleHeader) :
    HonestMessage sampleAlloy (wireMessage h.digest [h.code]) := by
  intro d bytes hp
  rw [parse_wireMessage] at hp
  cases hp
  exact ⟨⟨h, ()⟩, rfl, rfl⟩

/-- `one` is verified and finalized, `two` is verified on it, and the node is
asked for a block on `two`. -/
def anchoredRun : List (Node.Event (Reth sampleAlloy)) :=
  [.blockMessage (wireMessage SampleHeader.one.digest [2]),
    .enqueue (.verify (sampleVerify .EMPTY SampleHeader.one.digest 1)), .recv 0,
    .validated (sampleReth .one), .report (.finalization SampleHeader.one.digest), .finalizerRecv,
    .finalizerAnswer (.ok ⟨.valid, none⟩),
    .blockMessage (wireMessage SampleHeader.two.digest [3]),
    .enqueue (.verify (sampleVerify SampleHeader.one.digest SampleHeader.two.digest 2)), .recv 0,
    .validated (sampleReth .two),
    .enqueue (.propose (samplePropose SampleHeader.two.digest 3)), .recv 13000]

/-- A block of view 1 is proposed and finalized, and the engine asks for another
block of view 1. -/
def twoProposesRun : List (Node.Event (Reth sampleAlloy)) :=
  [.enqueue (.propose (samplePropose .EMPTY 1)), .recv 11000, .buildFcu, .built (sampleReth .one),
    .report (.finalization SampleHeader.one.digest), .finalizerRecv,
    .finalizerAnswer (.ok ⟨.valid, none⟩),
    .enqueue (.propose (samplePropose .EMPTY 1)), .recv 11000]

theorem anchoredRun_environment :
    Environment sampleConfig (anchoredRun ++ [.buildFcu]) ProposesAhead
      (fun d => if d = SampleHeader.one.digest then 1 else 2) SampleParent where
  reth := by
    intro e he reth hr
    simp only [anchoredRun, List.cons_append, List.nil_append, List.mem_cons, List.not_mem_nil,
      or_false] at he
    rcases he with rfl | rfl | rfl | rfl | rfl | rfl | rfl | rfl | rfl | rfl | rfl | rfl | rfl | rfl
      <;> cases hr
    · exact sampleReth_buildsOnHead .one
    · exact sampleReth_buildsOnHead .two
  honest := by
    intro data hdata
    simp only [anchoredRun, List.cons_append, List.nil_append, List.mem_cons, List.not_mem_nil,
      or_false, Event.blockMessage.injEq, reduceCtorEq, false_or] at hdata
    rcases hdata with rfl | rfl
    · exact honestMessage_of_header .one
    · exact honestMessage_of_header .two
  extending := fun _ _ h => .inl (sampleParent_extends h)
  order := by
    simp only [anchoredRun, enqueued, List.cons_append, List.nil_append, List.filterMap_cons,
      List.filterMap_nil, List.pairwise_cons, List.mem_cons, List.not_mem_nil, or_false,
      forall_eq_or_imp, forall_eq, List.Pairwise.nil, and_true]
    refine ⟨⟨⟨?_, ?_⟩, ?_, ?_⟩, ⟨?_, ?_⟩, fun _ h => h.elim⟩
    all_goals rintro _ _ ⟨⟩ ⟨⟩ <;> decide
  verified := by
    intro msg hmsg
    simp only [anchoredRun, enqueued, List.cons_append, List.nil_append, List.filterMap_cons,
      List.filterMap_nil, List.mem_cons, List.not_mem_nil, or_false, Message.verify.injEq,
      reduceCtorEq] at hmsg
    rcases hmsg with rfl | rfl
    · decide
    · decide
  proposed := by
    intro msg d hmem
    have hans : (run (prodStep sampleAlloy) (Node.start sampleConfig)
        (anchoredRun ++ [.buildFcu])).answers =
          [.verified (sampleVerify .EMPTY SampleHeader.one.digest 1) true,
            .verified (sampleVerify SampleHeader.one.digest SampleHeader.two.digest 2) true] := by
      decide
    rw [hans] at hmem
    simp at hmem
  safety := by
    intro msg hmsg f hf _
    simp only [anchoredRun, enqueued, List.cons_append, List.nil_append, List.filterMap_cons,
      List.filterMap_nil, List.mem_cons, List.not_mem_nil, or_false, Message.propose.injEq,
      reduceCtorEq, false_or] at hmsg
    simp only [anchoredRun, reported, List.cons_append, List.nil_append, List.filterMap_cons,
      List.filterMap_nil, Activity.finalized, List.mem_cons, List.not_mem_nil, or_false] at hf
    subst hmsg hf
    exact .single (.inr ⟨rfl, rfl⟩)

/-- The build on `two` is anchored at `one`, its parent. -/
theorem anchored_build_on_two :
    ReflTransGen (ExecParent sampleAlloy) SampleHeader.one.hash SampleHeader.two.hash := by
  have hsub : (run (prodStep sampleAlloy) (Node.start sampleConfig)
      (anchoredRun ++ [.buildFcu])).log =
        (run (prodStep sampleAlloy) (Node.start sampleConfig) anchoredRun).log ++
          [.buildFcu (samplePropose SampleHeader.two.digest 3)
            ⟨SampleHeader.two.hash, SampleHeader.one.hash, SampleHeader.one.hash⟩] := by decide
  have h := build_anchor_is_ancestor sampleAlloy_nonZero sampleAlloy_roundTrips sampleConfig
    (anchoredRun ++ [.buildFcu]) _ _ anchoredRun_environment rfl hsub (by decide)
  rcases h.2 with hg | hchain
  · exact absurd hg (by decide)
  · exact hchain

theorem twoProposesRun_environment :
    Environment sampleConfig (twoProposesRun ++ [.buildFcu]) InOrder (fun _ => 1)
      SampleParent where
  reth := by
    intro e he reth hr
    simp only [twoProposesRun, List.cons_append, List.nil_append, List.mem_cons, List.not_mem_nil,
      or_false] at he
    rcases he with rfl | rfl | rfl | rfl | rfl | rfl | rfl | rfl | rfl | rfl <;> cases hr
    exact sampleReth_buildsOnHead .one
  honest := by
    intro data hdata
    simp [twoProposesRun] at hdata
  extending := fun _ _ h => .inl (sampleParent_extends h)
  order := by
    simp only [twoProposesRun, enqueued, List.cons_append, List.nil_append, List.filterMap_cons,
      List.filterMap_nil, List.pairwise_cons, List.mem_cons, List.not_mem_nil, or_false,
      forall_eq, List.Pairwise.nil, and_true]
    refine ⟨?_, fun _ h => h.elim⟩
    rintro _ _ ⟨⟩ ⟨⟩
    decide
  verified := by
    intro msg hmsg
    simp [twoProposesRun, enqueued] at hmsg
  proposed := by
    intro msg d hmem
    have hans : (run (prodStep sampleAlloy) (Node.start sampleConfig)
        (twoProposesRun ++ [.buildFcu])).answers =
          [.proposed (samplePropose .EMPTY 1) (some SampleHeader.one.digest)] := by
      decide
    rw [hans] at hmem
    simp only [List.mem_singleton, Answer.proposed.injEq] at hmem
    rw [hmem.1]
    rfl
  safety := by
    intro msg hmsg f _ hview
    simp only [twoProposesRun, enqueued, List.cons_append, List.nil_append, List.filterMap_cons,
      List.filterMap_nil, List.mem_cons, List.not_mem_nil, or_false, Message.propose.injEq,
      or_self] at hmsg
    subst hmsg
    exact absurd hview (by decide)

/-- No chain leads from `one` down to genesis. -/
theorem not_execAncestor_genesis :
    ¬ ReflTransGen (ExecParent sampleAlloy) SampleHeader.one.hash SampleHeader.genesis.hash := by
  intro hchain
  have hinv : ∀ x, ReflTransGen (ExecParent sampleAlloy) SampleHeader.one.hash x →
      x = SampleHeader.one.hash ∨ x = SampleHeader.two.hash := by
    intro x hx
    induction hx with
    | refl => exact .inl rfl
    | tail _ hlast ih =>
      obtain ⟨h, rfl, hparent⟩ := hlast
      change h.parent.hash = _ at hparent
      rw [← hparent] at ih
      cases h with
      | two => exact .inr rfl
      | genesis | one | fork => rcases ih with ih | ih <;> exact absurd ih (by decide)
  rcases hinv _ hchain with h | h <;> exact absurd h (by decide)

/-- The engine keeps to non-decreasing views, and still the second build of view 1
has genesis as its head and the finalized block `one` as its anchor. -/
theorem second_propose_of_view_loses_anchor :
    Environment sampleConfig (twoProposesRun ++ [.buildFcu]) InOrder (fun _ => 1) SampleParent ∧
      (run (prodStep sampleAlloy) (Node.start sampleConfig) (twoProposesRun ++ [.buildFcu])).log =
        (run (prodStep sampleAlloy) (Node.start sampleConfig) twoProposesRun).log ++
          [.buildFcu (samplePropose .EMPTY 1)
            ⟨SampleHeader.genesis.hash, SampleHeader.one.hash, SampleHeader.one.hash⟩] ∧
      ((run (prodStep sampleAlloy) (Node.start sampleConfig) twoProposesRun).info .EMPTY).isSome ∧
      SampleHeader.one.hash ≠ SampleHeader.genesis.hash ∧
      ¬ ReflTransGen (ExecParent sampleAlloy) SampleHeader.one.hash SampleHeader.genesis.hash :=
  ⟨twoProposesRun_environment, by decide, by decide, by decide, not_execAncestor_genesis⟩

end Allegro
