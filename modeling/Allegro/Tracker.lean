import Allegro.Node

/-!
# What the tracker holds

The reporter sends a finalized digest into a bounded channel and drops it when
the channel is full. The finalizer takes digests in the order in which they were
accepted, and after each forkchoice update that is answered valid it overwrites
the tracker, whatever the tracker held before.

Results:
1. `tracks_step`: the tracker holds the record of the last digest that went
   through the channel, and what is still under way comes after it.
2. `tracker_holds_last_accepted`: once the channel is drained, that is the last
   report that the channel accepted.
3. `burst_drops_newest`: it need not be the last report.
4. `anchors_step`: the tracker holds the anchor of the last answer VALID.
5. `tracker_number_monotone_iff`: its number never falls exactly when the blocks
   that were answered VALID came in the order of their numbers.
6. `late_certificate_moves_anchor_back`: a run in which it falls.
-/

namespace Allegro

open Run Node

/-! ## The channel -/

section Definitions

variable {ρ : Type}

/-- The digest that an event puts into the channel: a finalization that is
reported while the channel has room. -/
def Node.accepts (n : Node) : Node.Event ρ → List Digest
  | .report activity =>
    match activity.finalized with
    | some d => if n.sink.items.length < n.sink.cap then [d] else []
    | none => []
  | _ => []

/-- The finalized digests that the channel accepts in a run. -/
def Node.accepted (B : PayloadBuilder ρ) : Node → List (Node.Event ρ) → List Digest
  | _, [] => []
  | n, e :: es => n.accepts e ++ accepted B (n.step B e) es

/-- A digest that is reported as finalized is recorded. -/
def ReportsRecorded (n : Node) : Node.Event ρ → Prop
  | .report activity =>
    match activity.finalized with
    | some d => (n.info d).isSome
    | none => True
  | _ => True

/-- No record is replaced by one with another hash or number. -/
def KeepsRecords (B : PayloadBuilder ρ) (n : Node) (e : Node.Event ρ) : Prop :=
  ∀ d i old, Records B n e d i → n.info d = some old → i.hash = old.hash ∧ i.number = old.number

/-- Every forkchoice update of the finalizer is answered valid. -/
def AnswersValid : Node.Event ρ → Prop
  | .finalizerAnswer (.ok fcu) => fcu.payloadStatus.isValid = true
  | .finalizerAnswer (.error _) => False
  | _ => True

/-- The digest the finalizer works on. -/
def FinalizerStage.digest : FinalizerStage → List Digest
  | .idle => []
  | .submitting d _ _ => [d]

/-- The tracker holds the record of the digest, or what it started with. -/
def HoldsRecordOf (n : Node) (start : Finalized) : Option Digest → Prop
  | none => n.tracker.finalized = start
  | some d => ∃ i, n.info d = some i ∧ n.tracker.finalized = (i.hash, i.number)

/-- The accepted digests are finished, at the finalizer or in the channel, in
this order, and the tracker holds the record of the last finished one. -/
structure Tracks (start : Finalized) (accepted : List Digest) (n : Node) : Prop where
  queue : ∃ finished, accepted = finished ++ (n.finalizer.digest ++ n.sink.items) ∧
    HoldsRecordOf n start finished.getLast?
  submitting : ∀ d hash number, n.finalizer = .submitting d hash number →
    ∃ i, n.info d = some i ∧ hash = i.hash ∧ number = i.number
  recorded : ∀ d ∈ n.sink.items, (n.info d).isSome

end Definitions

namespace TrackerLemmas

variable {ρ : Type} {B : PayloadBuilder ρ} {n : Node} {e : Node.Event ρ} {start : Finalized}

theorem accepted_append (n : Node) (es es' : List (Node.Event ρ)) :
    accepted B n (es ++ es') = accepted B n es ++ accepted B (run (Node.step B) n es) es' := by
  induction es generalizing n with
  | nil => rfl
  | cons e es ih =>
    simp only [List.cons_append, accepted, ih, run_cons, List.append_assoc]

theorem accepted_concat (n : Node) (es : List (Node.Event ρ)) (e : Node.Event ρ) :
    accepted B n (es ++ [e]) = accepted B n es ++ (run (Node.step B) n es).accepts e := by
  rw [accepted_append]
  simp only [accepted, List.append_nil]

theorem accepts_of_not_finalized
    (h : ∀ activity, e = .report activity → activity.finalized = none) : n.accepts e = [] := by
  cases e with
  | report activity => simp only [accepts, h activity rfl]
  | _ => rfl

/-- What is not reported as finalized is not accepted. -/
theorem accepts_of_not_reported (h : reported [e] = []) : n.accepts e = [] := by
  cases e with
  | report activity =>
    cases ha : activity.finalized with
    | none => simp only [accepts, ha]
    | some d =>
      have hone : reported [(.report activity : Node.Event ρ)] = [d] := by simp [reported, ha]
      rw [hone] at h
      cases h
  | _ => rfl

theorem accepted_of_not_reported {n : Node} {es : List (Node.Event ρ)} (h : reported es = []) :
    accepted B n es = [] := by
  induction es generalizing n with
  | nil => rfl
  | cons e es ih =>
    have hsplit : reported [e] ++ reported es = [] := by
      rw [reported, reported, ← List.filterMap_append]
      exact h
    obtain ⟨he, hes⟩ := List.append_eq_nil_iff.mp hsplit
    rw [accepted, accepts_of_not_reported he, ih hes]
    rfl

/-- A record stays, with its hash and number. -/
theorem info_kept (hk : KeepsRecords B n e) {d : Digest} {i : BlockInfo} (hi : n.info d = some i) :
    ∃ i', (n.step B e).info d = some i' ∧ i.hash = i'.hash ∧ i.number = i'.number := by
  obtain ⟨i', hi', rfl | hrec⟩ := Node.info_step_some (B := B) e hi
  · exact ⟨i', hi', rfl, rfl⟩
  · obtain ⟨hh, hn⟩ := hk d i' i hrec hi
    exact ⟨i', hi', hh.symm, hn.symm⟩

/-- Records stay, so a tracker that does not move holds what it held. -/
theorem holdsRecordOf_step (hk : KeepsRecords B n e)
    (ht : (n.step B e).tracker = n.tracker) {o : Option Digest} (h : HoldsRecordOf n start o) :
    HoldsRecordOf (n.step B e) start o := by
  cases o with
  | none =>
    rw [HoldsRecordOf, ht]
    exact h
  | some d =>
    obtain ⟨i, hi, hheld⟩ := h
    obtain ⟨i', hi', hh, hn⟩ := info_kept hk hi
    exact ⟨i', hi', by rw [ht, hheld, hh, hn]⟩

/-- What the finalizer submits keeps its record. -/
theorem submitting_kept {acc : List Digest} (hk : KeepsRecords B n e) (h : Tracks start acc n)
    {d : Digest} {hash : B256} {number : UInt64} (hf : n.finalizer = .submitting d hash number) :
    ∃ i, (n.step B e).info d = some i ∧ hash = i.hash ∧ number = i.number := by
  obtain ⟨i, hi, rfl, rfl⟩ := h.submitting d hash number hf
  exact info_kept hk hi

/-- A step that moves neither the tracker nor the channel nor the finalizer. -/
theorem tracks_frame {acc : List Digest} (hk : KeepsRecords B n e) (h : Tracks start acc n)
    (ht : (n.step B e).tracker = n.tracker) (hs : (n.step B e).sink = n.sink)
    (hf : (n.step B e).finalizer = n.finalizer) : Tracks start acc (n.step B e) := by
  obtain ⟨finished, hq, hheld⟩ := h.queue
  refine ⟨⟨finished, ?_, holdsRecordOf_step hk ht hheld⟩, ?_, ?_⟩
  · rw [hs, hf]
    exact hq
  · rw [hf]
    exact fun _ _ _ => submitting_kept hk h
  · rw [hs]
    exact fun d hd => Node.info_step_isSome e (h.recorded d hd)

theorem tracks_step {acc : List Digest} (hl : n.Healthy) (hr : ReportsRecorded n e)
    (hk : KeepsRecords B n e) (hv : AnswersValid e) (h : Tracks start acc n) :
    Tracks start (acc ++ n.accepts e) (n.step B e) := by
  obtain ⟨finished, hq, hheld⟩ := h.queue
  have hrec' : ∀ d ∈ n.sink.items, ((n.step B e).info d).isSome :=
    fun d hd => Node.info_step_isSome e (h.recorded d hd)
  have hstill : n.accepts e = [] → (n.step B e).tracker = n.tracker →
      (n.step B e).sink = n.sink → (n.step B e).finalizer = n.finalizer →
      Tracks start (acc ++ n.accepts e) (n.step B e) := by
    intro hacc ht hs hf
    rw [hacc, List.append_nil]
    exact tracks_frame hk h ht hs hf
  cases moves_step (B := B) n e with
  | quiet hquiet ht hs hf _ => exact hstill (accepts_of_not_finalized hquiet.report) ht hs hf
  | buildFcu _ _ ht hs hf _ => exact hstill rfl ht hs hf
  | @forwarded _ activity d q ha htry ht hs hf _ =>
    obtain ⟨hlt, hitems, _⟩ := Fifo.trySend_eq_some htry
    have hacc : n.accepts (.report activity : Node.Event ρ) = [d] := by
      simp only [accepts, ha, if_pos hlt]
    rw [hacc]
    refine ⟨⟨finished, ?_, holdsRecordOf_step hk ht hheld⟩, ?_, ?_⟩
    · rw [hs, hf, hitems, hq]
      simp only [List.append_assoc]
    · rw [hf]
      exact fun _ _ _ => submitting_kept hk h
    · rw [hs, hitems]
      intro x hx
      rcases List.mem_append.mp hx with hold | hnew
      · exact hrec' x hold
      · rw [List.mem_singleton.mp hnew]
        simp only [ReportsRecorded, ha] at hr
        exact Node.info_step_isSome _ hr
  | @dropped _ activity d ha htry ht hs hf _ =>
    have hfull := Nat.not_lt.mpr (Fifo.trySend_eq_none.mp htry)
    refine hstill ?_ ht hs hf
    simp only [accepts, ha, if_neg hfull]
  | poisoned _ _ hp _ _ _ _ =>
    rw [hl.blockInfo] at hp
    cases hp
  | notFound _ hnext hnone _ _ _ _ =>
    have hsome := h.recorded _ (by rw [(Fifo.next_eq_some hnext).1]; exact List.mem_cons_self)
    rw [hnone] at hsome
    cases hsome
  | @submitted _ d q info hidle hnext hi ht hs hf _ =>
    have hitems := (Fifo.next_eq_some hnext).1
    rw [show n.accepts (.finalizerRecv : Node.Event ρ) = [] from rfl, List.append_nil]
    refine ⟨⟨finished, ?_, holdsRecordOf_step hk ht hheld⟩, ?_, ?_⟩
    · rw [hq, hidle, hitems, hs, hf]
      rfl
    · rw [hf]
      intro x hash number hx
      cases hx
      exact info_kept hk hi
    · rw [hs]
      intro x hx
      exact hrec' x (by rw [hitems]; exact List.mem_cons_of_mem _ hx)
  | @finalized _ d hash number fcu hm hvalid ht hs hf _ =>
    rw [show n.accepts (.finalizerAnswer (.ok fcu) : Node.Event ρ) = [] from rfl, List.append_nil]
    obtain ⟨i, hi, hh, hn⟩ := submitting_kept hk h hm
    refine ⟨⟨finished ++ [d], ?_, ?_⟩, ?_, ?_⟩
    · rw [hq, hm, hs, hf]
      simp only [FinalizerStage.digest, List.append_assoc, List.nil_append]
    · rw [List.getLast?_concat]
      exact ⟨i, hi, by rw [ht, hh, hn]⟩
    · rw [hf]
      exact fun _ _ _ hx => (nomatch hx)
    · rw [hs]
      exact hrec'
  | @failed _ d hash number result hm hinvalid _ _ _ _ =>
    cases result with
    | ok fcu =>
      rw [AnswersValid, hinvalid fcu rfl] at hv
      cases hv
    | error reason => exact absurd hv id

theorem tracks_run (validators : ValidatorSet) (metrics : Option ConsensusMetrics)
    (g : GenesisInfo) (senders : Nat) (es : List (Node.Event ρ))
    (hC : Along (Node.step B)
      (fun n e => (ReportsRecorded n e ∧ KeepsRecords B n e) ∧ AnswersValid e)
      (Node.new validators metrics g senders) es) :
    Tracks (g.hash, 0) (accepted B (Node.new validators metrics g senders) es)
      (run (Node.step B) (Node.new validators metrics g senders) es) := by
  refine (trace_invariant (Node.step B) (Node.new validators metrics g senders)
    (P := fun es n => Along (Node.step B)
        (fun n e => (ReportsRecorded n e ∧ KeepsRecords B n e) ∧ AnswersValid e)
        (Node.new validators metrics g senders) es →
      n.Healthy ∧ Tracks (g.hash, 0) (accepted B (Node.new validators metrics g senders) es) n)
    ?_ ?_ es hC).2
  · intro _
    refine ⟨App.healthy_new validators metrics g, ⟨[], rfl, rfl⟩, fun _ _ _ h => (nomatch h),
      fun _ h => (nomatch h)⟩
  · intro es e ih hC'
    obtain ⟨hes, ⟨⟨hr, hk⟩, hv⟩, _⟩ := along_append.mp hC'
    obtain ⟨hl, ht⟩ := ih hes
    refine ⟨Node.healthy_step e hl, ?_⟩
    rw [accepted_concat]
    exact tracks_step hl hr hk hv ht

end TrackerLemmas

open TrackerLemmas

/-- For any interleaving of reports with the finalizer and all other steps, with
any builder: if every reported digest is recorded, records keep their hash and
number, and every forkchoice update of the finalizer is answered valid, then once
the channel is drained and the finalizer is idle the tracker holds the hash and
number of the last reported digest that the channel accepted. If the channel had
room at the last report, this is the last reported digest. -/
theorem tracker_holds_last_accepted {ρ : Type} (B : PayloadBuilder ρ) (validators : ValidatorSet)
    (metrics : Option ConsensusMetrics) (g : GenesisInfo) (senders : Nat)
    (es : List (Node.Event ρ))
    (hrec : Along (Node.step B) ReportsRecorded (Node.new validators metrics g senders) es)
    (hkeep : Along (Node.step B) (KeepsRecords B) (Node.new validators metrics g senders) es)
    (hvalid : ∀ e ∈ es, AnswersValid e)
    (hdrained : (run (Node.step B) (Node.new validators metrics g senders) es).sink.items = [])
    (hidle : (run (Node.step B) (Node.new validators metrics g senders) es).finalizer = .idle) :
    HoldsRecordOf (run (Node.step B) (Node.new validators metrics g senders) es) (g.hash, 0)
        (accepted B (Node.new validators metrics g senders) es).getLast? ∧
      ∀ es₁ activity d es₂, es = es₁ ++ .report activity :: es₂ → activity.finalized = some d →
        reported es₂ = [] →
        (run (Node.step B) (Node.new validators metrics g senders) es₁).sink.items.length <
          (run (Node.step B) (Node.new validators metrics g senders) es₁).sink.cap →
        HoldsRecordOf (run (Node.step B) (Node.new validators metrics g senders) es) (g.hash, 0)
          (some d) := by
  have hlast : HoldsRecordOf (run (Node.step B) (Node.new validators metrics g senders) es)
      (g.hash, 0) (accepted B (Node.new validators metrics g senders) es).getLast? := by
    obtain ⟨⟨finished, hq, hheld⟩, _, _⟩ := tracks_run validators metrics g senders es
      ((hrec.and hkeep).and (along_of_forall hvalid))
    rw [hdrained, hidle] at hq
    rw [hq]
    simpa only [FinalizerStage.digest, List.append_nil] using hheld
  refine ⟨hlast, fun es₁ activity d es₂ hes ha hnone hlt => ?_⟩
  have hacc : (accepted B (Node.new validators metrics g senders) es).getLast? = some d := by
    rw [hes, accepted_append, accepted, accepted_of_not_reported hnone, List.append_nil]
    simp only [accepts, ha, if_pos hlt]
    exact List.getLast?_concat
  rw [hacc] at hlast
  exact hlast

/-! ### Two runs -/

/-- The finalizer takes a digest, and its forkchoice update is answered valid. -/
def forwardOne : List (Node.Event (Reth sampleAlloy)) :=
  [.finalizerRecv, .finalizerAnswer (.ok ⟨.valid, none⟩)]

/-- `one` and `two` are reported and go through the channel. -/
def forwardBoth : List (Node.Event (Reth sampleAlloy)) :=
  [.report (.finalization SampleHeader.one.digest),
    .report (.finalization SampleHeader.two.digest)] ++
    (forwardOne ++ forwardOne)

/-- The channel is filled with reports of `one` before `two` is reported. Then
the finalizer drains it. -/
def burst : List (Node.Event (Reth sampleAlloy)) :=
  List.replicate 33 (.report (.finalization SampleHeader.one.digest)) ++
    .report (.finalization SampleHeader.two.digest) :: (List.replicate 33 forwardOne).flatten

namespace TrackerLemmas

/-- Reports of `one` and `two`, and the finalizer's steps. -/
def OfBurst (e : Node.Event (Reth sampleAlloy)) : Prop :=
  e = .report (.finalization SampleHeader.one.digest) ∨
    e = .report (.finalization SampleHeader.two.digest) ∨ e ∈ forwardOne

theorem ofBurst_forwardBoth : ∀ e ∈ forwardBoth, OfBurst e := by
  intro e he
  simp only [forwardBoth, List.cons_append, List.nil_append, List.mem_cons, List.mem_append,
    or_self] at he
  exact he

theorem ofBurst_burst : ∀ e ∈ burst, OfBurst e := by
  intro e he
  rcases List.mem_append.mp he with hone | hrest
  · exact .inl (List.eq_of_mem_replicate hone)
  · rcases List.mem_cons.mp hrest with htwo | hforward
    · exact .inr (.inl htwo)
    · obtain ⟨l, hl, he⟩ := List.mem_flatten.mp hforward
      rw [List.eq_of_mem_replicate hl] at he
      exact .inr (.inr he)

/-- A block is recorded for the first time. -/
theorem keepsRecords_of_fresh {ρ : Type} {B : PayloadBuilder ρ} {n : Node} {msg : Verify}
    {bytes : Bytes} {ph : B256} {env : ρ} (hstage : n.stage = .validating msg bytes ph)
    (hnone : n.info msg.payload = none) : KeepsRecords B n (.validated env) := by
  intro d i old hrec hold
  cases hrec with
  | verified hstage' _ _ =>
    cases hstage.symm.trans hstage'
    rw [hnone] at hold
    cases hold

/-- After both blocks are verified, reports of them and steps of the finalizer
meet what is assumed of a run. -/
theorem assumptions_of_burst {es : List (Node.Event (Reth sampleAlloy))}
    (hes : ∀ e ∈ es, OfBurst e) :
    Along (prodStep sampleAlloy) ReportsRecorded (Node.start sampleConfig) (sampleChainRun ++ es) ∧
      Along (prodStep sampleAlloy) (KeepsRecords (createEnginePayloadBuilder sampleAlloy))
        (Node.start sampleConfig) (sampleChainRun ++ es) ∧
      ∀ e ∈ sampleChainRun ++ es, AnswersValid e := by
  have hinfo : ∀ es' d, d = SampleHeader.one.digest ∨ d = SampleHeader.two.digest →
      ((run (prodStep sampleAlloy) (run (prodStep sampleAlloy) (Node.start sampleConfig)
        sampleChainRun) es').info d).isSome := by
    intro es' d hd
    refine run_invariant (P := fun n : Node => (n.info d).isSome)
      (fun _ e h => Node.info_step_isSome e h) ?_ es'
    rcases hd with rfl | rfl
    · decide
    · decide
  refine ⟨along_append.mpr ⟨?_, ?_⟩, along_append.mpr ⟨?_, ?_⟩, fun e he => ?_⟩
  · exact ⟨trivial, trivial, trivial, trivial, trivial, trivial, trivial, trivial, trivial⟩
  · refine along_of_splits fun es₁ e es₂ hsplit => ?_
    rcases hes e (by rw [hsplit]; simp) with rfl | rfl | he
    · exact hinfo es₁ _ (.inl rfl)
    · exact hinfo es₁ _ (.inr rfl)
    · simp only [forwardOne, List.mem_cons, List.not_mem_nil, or_false] at he
      rcases he with rfl | rfl
      · trivial
      · trivial
  · exact ⟨fun _ _ _ h => (nomatch h), fun _ _ _ h => (nomatch h), fun _ _ _ h => (nomatch h),
      fun _ _ _ h => (nomatch h), keepsRecords_of_fresh rfl (by decide),
      fun _ _ _ h => (nomatch h), fun _ _ _ h => (nomatch h),
      keepsRecords_of_fresh rfl (by decide), trivial⟩
  · refine along_of_splits fun es₁ e es₂ hsplit => ?_
    rcases hes e (by rw [hsplit]; simp) with rfl | rfl | he
    · exact fun _ _ _ h => (nomatch h)
    · exact fun _ _ _ h => (nomatch h)
    · simp only [forwardOne, List.mem_cons, List.not_mem_nil, or_false] at he
      rcases he with rfl | rfl
      · exact fun _ _ _ h => (nomatch h)
      · exact fun _ _ _ h => (nomatch h)
  · rcases List.mem_append.mp he with he | he
    · simp only [sampleChainRun, List.mem_cons, List.not_mem_nil, or_false] at he
      rcases he with rfl | rfl | rfl | rfl | rfl | rfl | rfl | rfl <;> trivial
    · rcases hes e he with rfl | rfl | he
      · trivial
      · trivial
      · simp only [forwardOne, List.mem_cons, List.not_mem_nil, or_false] at he
        rcases he with rfl | rfl
        · trivial
        · rfl

end TrackerLemmas

/-- Both reports find room, and the tracker ends at `two`. -/
theorem tracker_holds_last_of_two :
    HoldsRecordOf (run (prodStep sampleAlloy) (Node.start sampleConfig)
      (sampleChainRun ++ forwardBoth)) (SampleHeader.genesis.hash, 0)
      (some SampleHeader.two.digest) := by
  obtain ⟨hrec, hkeep, hvalid⟩ := assumptions_of_burst ofBurst_forwardBoth
  exact (tracker_holds_last_accepted (createEnginePayloadBuilder sampleAlloy) _ none _ 1
    (sampleChainRun ++ forwardBoth) hrec hkeep hvalid (by decide) (by decide)).2
    (sampleChainRun ++ [.report (.finalization SampleHeader.one.digest)])
    (.finalization SampleHeader.two.digest) SampleHeader.two.digest (forwardOne ++ forwardOne)
    rfl rfl rfl (by decide)

set_option maxRecDepth 4000 in
/-- A burst of 34 reports into a channel of 33: everything reported is recorded and
every update is answered valid, and the drained node holds `one`, although `two`
was reported last. -/
theorem burst_drops_newest :
    let n := run (prodStep sampleAlloy) (Node.start sampleConfig) (sampleChainRun ++ burst)
    (Along (prodStep sampleAlloy) ReportsRecorded (Node.start sampleConfig)
        (sampleChainRun ++ burst) ∧
      Along (prodStep sampleAlloy) (KeepsRecords (createEnginePayloadBuilder sampleAlloy))
        (Node.start sampleConfig) (sampleChainRun ++ burst) ∧
      ∀ e ∈ sampleChainRun ++ burst, AnswersValid e) ∧
      n.sink.items = [] ∧ n.finalizer = .idle ∧
      (reported (sampleChainRun ++ burst)).getLast? = some SampleHeader.two.digest ∧
      n.info SampleHeader.two.digest = some ⟨2, SampleHeader.two.hash, 2, sampleKey, 12, 12000⟩ ∧
      n.tracker.finalized = (SampleHeader.one.hash, 1) :=
  ⟨assumptions_of_burst ofBurst_burst, by decide, by decide, by decide, by decide, by decide⟩

/-! ## The history of the tracker -/

/-- The anchors in the order in which they were set: the one the tracker starts
with, then the hash and number of every update that was answered VALID. -/
def anchors {ρ : Type} (B : PayloadBuilder ρ) (start : Finalized) (n : Node)
    (es : List (Node.Event ρ)) : List Finalized :=
  start :: (trace (Node.step B) Node.confirms n es).map Finalization.anchor

/-- The number that the tracker holds never falls in the run. -/
def NeverFalls {ρ : Type} (B : PayloadBuilder ρ) (n : Node) (es : List (Node.Event ρ)) : Prop :=
  ∀ es₁ es₂, es₁ <+: es₂ → es₂ <+: es →
    (run (Node.step B) n es₁).tracker.finalized.2 ≤ (run (Node.step B) n es₂).tracker.finalized.2

/-- After the events `es` the tracker holds genesis, or what was recorded at some
point for a digest whose forkchoice update was submitted and then answered VALID. -/
def HoldsFinalized {ρ : Type} (B : PayloadBuilder ρ) (start : Node) (g : B256)
    (es : List (Node.Event ρ)) : Prop :=
  (run (Node.step B) start es).tracker.finalized = (g, 0) ∨
    ∃ d i es₀ es₁ fcu es₂, es = es₁ ++ .finalizerAnswer (.ok fcu) :: es₂ ∧
      fcu.payloadStatus.isValid = true ∧
      (run (Node.step B) start es₁).finalizer = .submitting d i.hash i.number ∧
      .finalizeFcu d (finalizeForkchoice i.hash) ∈ (run (Node.step B) start es₁).log ∧
      es₀ <+: es₁ ∧ (run (Node.step B) start es₀).info d = some i ∧
      (run (Node.step B) start es).tracker.finalized = (i.hash, i.number)

namespace TrackerLemmas

variable {ρ : Type} {B : PayloadBuilder ρ} {n : Node} {start : Finalized}
  {es : List (Node.Event ρ)}

theorem anchors_concat (es : List (Node.Event ρ)) (e : Node.Event ρ) :
    anchors B start n (es ++ [e]) =
      anchors B start n es ++ ((run (Node.step B) n es).confirms e).map Finalization.anchor := by
  rw [anchors, trace_concat, List.map_append]
  rfl

/-- A step sets the tracker and adds the new anchor to the history, or leaves both. -/
theorem anchors_step (start : Finalized) (n : Node) (es : List (Node.Event ρ))
    (e : Node.Event ρ) :
    ((run (Node.step B) n (es ++ [e])).tracker = (run (Node.step B) n es).tracker ∧
        anchors B start n (es ++ [e]) = anchors B start n es) ∨
      anchors B start n (es ++ [e]) =
        anchors B start n es ++ [(run (Node.step B) n (es ++ [e])).tracker.finalized] := by
  rw [anchors_concat, run_concat]
  rcases confirms_step (B := B) (run (Node.step B) n es) e with ⟨hnone, ht⟩ | ⟨f, hone, ht⟩
  · rw [hnone]
    exact .inl ⟨ht, List.append_nil _⟩
  · rw [hone, ht]
    exact .inr rfl

/-- The tracker holds the anchor that was set last. -/
theorem getLast_anchors (hn : n.tracker.finalized = start) (es : List (Node.Event ρ)) :
    (anchors B start n es).getLast? = some (run (Node.step B) n es).tracker.finalized := by
  induction es using List.reverseRecOn with
  | nil => exact congrArg some hn.symm
  | append_singleton es e ih =>
    rcases anchors_step (B := B) start n es e with ⟨ht, hsame⟩ | hnew
    · rw [ht, hsame]
      exact ih
    · rw [hnew, List.getLast?_concat]

theorem anchors_grow {es es' : List (Node.Event ρ)} (h : es <+: es') :
    anchors B start n es <+: anchors B start n es' := by
  obtain ⟨rest, rfl⟩ := h
  rw [anchors, anchors, trace_append, List.map_append, ← List.cons_append]
  exact List.prefix_append _ _

/-- In an ordered history everything is below the last anchor. -/
theorem le_of_getLast {history : List Finalized} {x last : Finalized}
    (hp : history.Pairwise fun a b => a.2 ≤ b.2) (hlast : history.getLast? = some last)
    (hx : x ∈ history) : x.2 ≤ last.2 := by
  obtain ⟨older, rfl⟩ := List.getLast?_eq_some_iff.mp hlast
  rcases List.mem_append.mp hx with hold | hnew
  · exact (List.pairwise_append.mp hp).2.2 x hold last (List.mem_singleton_self _)
  · rw [List.mem_singleton.mp hnew]
    exact UInt64.le_refl _

theorem neverFalls_of_pairwise (hn : n.tracker.finalized = start)
    (hp : (anchors B start n es).Pairwise fun a b => a.2 ≤ b.2) : NeverFalls B n es := by
  intro es₁ es₂ h₁ h₂
  have hmem : (run (Node.step B) n es₁).tracker.finalized ∈ anchors B start n es₂ :=
    (anchors_grow h₁).subset (List.mem_of_getLast? (getLast_anchors hn es₁))
  exact le_of_getLast (hp.sublist (anchors_grow h₂).sublist) (getLast_anchors hn es₂) hmem

theorem pairwise_of_neverFalls (hn : n.tracker.finalized = start) (es : List (Node.Event ρ))
    (h : NeverFalls B n es) : (anchors B start n es).Pairwise fun a b => a.2 ≤ b.2 := by
  induction es using List.reverseRecOn with
  | nil => exact List.pairwise_singleton _ _
  | append_singleton es e ih =>
    have hold := ih fun es₁ es₂ h₁ h₂ => h es₁ es₂ h₁ (h₂.trans (List.prefix_append es [e]))
    rcases anchors_step (B := B) start n es e with ⟨-, hsame⟩ | hnew
    · rw [hsame]
      exact hold
    · rw [hnew]
      refine List.pairwise_append.mpr ⟨hold, List.pairwise_singleton _ _, fun x hx y hy => ?_⟩
      rw [List.mem_singleton.mp hy]
      -- below the anchor held before the step, which is not above the new one
      have hbefore := le_of_getLast hold (getLast_anchors hn es) hx
      have hstep := h es (es ++ [e]) (List.prefix_append es [e]) (List.prefix_refl _)
      exact UInt64.le_trans hbefore hstep

/-- What the finalizer waits on was submitted, for a record that `d` had at some point. -/
def Provenance (B : PayloadBuilder ρ) (start : Node) (es : List (Node.Event ρ)) (n : Node) :
    Prop :=
  ∀ d hash number, n.finalizer = .submitting d hash number →
    .finalizeFcu d (finalizeForkchoice hash) ∈ n.log ∧
      ∃ i es₀, es₀ <+: es ∧ (run (Node.step B) start es₀).info d = some i ∧ hash = i.hash ∧
        number = i.number

theorem provenance_step {start : Node}
    (h : Provenance B start es (run (Node.step B) start es)) (e : Node.Event ρ) :
    Provenance B start (es ++ [e]) ((run (Node.step B) start es).step B e) := by
  intro d hash number hsub
  have hkept : (run (Node.step B) start es).finalizer = .submitting d hash number →
      .finalizeFcu d (finalizeForkchoice hash) ∈ ((run (Node.step B) start es).step B e).log ∧
        ∃ i es₀, es₀ <+: es ++ [e] ∧ (run (Node.step B) start es₀).info d = some i ∧
          hash = i.hash ∧ number = i.number := by
    intro hold
    obtain ⟨hlog, i, es₀, hpre, hi⟩ := h d hash number hold
    exact ⟨(log_grows_step _ e).subset hlog, i, es₀, hpre.trans (List.prefix_append es [e]), hi⟩
  cases moves_step (B := B) (run (Node.step B) start es) e with
  | quiet _ _ _ hf _ | buildFcu _ _ _ _ hf _ | forwarded _ _ _ _ hf _ | dropped _ _ _ _ hf _ =>
    exact hkept (hf.symm.trans hsub)
  | poisoned _ _ _ _ _ hf _ | notFound _ _ _ _ _ hf _ | finalized _ _ _ _ hf _
  | failed _ _ _ _ hf _ =>
    cases hf.symm.trans hsub
  | submitted _ _ hi _ _ hf hlog =>
    cases hf.symm.trans hsub
    refine ⟨?_, _, es, List.prefix_append es [_], hi, rfl, rfl⟩
    rw [hlog]
    exact List.mem_append_right _ (List.mem_singleton_self _)

theorem provenance_run (validators : ValidatorSet) (metrics : Option ConsensusMetrics)
    (g : GenesisInfo) (senders : Nat) (es : List (Node.Event ρ)) :
    Provenance B (Node.new validators metrics g senders) es
      (run (Node.step B) (Node.new validators metrics g senders) es) := by
  refine trace_invariant _ _ (P := Provenance B (Node.new validators metrics g senders)) ?_
    (fun es e ih => provenance_step ih e) es
  rintro d hash number ⟨⟩

end TrackerLemmas

/-- For every run, with any order of reports, any records and any answers to the
finalizer: the tracker holds the anchor of the last answer VALID; its number
never falls exactly when the blocks that were answered VALID came in the order of
their numbers; and at every point of the run it holds genesis, or the recorded
hash and number of a digest whose forkchoice update was answered VALID. -/
theorem tracker_number_monotone_iff {ρ : Type} (B : PayloadBuilder ρ) (validators : ValidatorSet)
    (metrics : Option ConsensusMetrics) (g : GenesisInfo) (senders : Nat)
    (es : List (Node.Event ρ)) :
    (anchors B (g.hash, 0) (Node.new validators metrics g senders) es).getLast? =
      some (run (Node.step B) (Node.new validators metrics g senders) es).tracker.finalized ∧
    (NeverFalls B (Node.new validators metrics g senders) es ↔
      (anchors B (g.hash, 0) (Node.new validators metrics g senders) es).Pairwise
        fun a b => a.2 ≤ b.2) ∧
    ∀ es₁, es₁ <+: es → HoldsFinalized B (Node.new validators metrics g senders) g.hash es₁ := by
  have hstart : (Node.new validators metrics g senders).tracker.finalized = (g.hash, 0) := rfl
  refine ⟨getLast_anchors hstart es, ⟨pairwise_of_neverFalls hstart es,
    neverFalls_of_pairwise hstart⟩, fun es₁ _ => ?_⟩
  have hlast := List.mem_of_getLast? (getLast_anchors (B := B) hstart es₁)
  rcases List.mem_cons.mp hlast with hgenesis | hset
  · exact .inl hgenesis
  · obtain ⟨f, hf, hanchor⟩ := List.mem_map.mp hset
    obtain ⟨es₂, e, es₃, rfl, hmem⟩ := mem_trace hf
    obtain ⟨fcu, rfl, hvalid, hsub⟩ := mem_confirms.mp hmem
    obtain ⟨hlog, i, es₀, hpre, hi, hhash, hnumber⟩ :=
      provenance_run (B := B) validators metrics g senders es₂ _ _ _ hsub
    rw [hhash] at hlog
    rw [hhash, hnumber] at hsub
    refine .inr ⟨f.digest, i, es₀, es₂, fcu, es₃, rfl, hvalid, hsub, hlog, hpre, hi, ?_⟩
    rw [← hanchor, Finalization.anchor, hhash, hnumber]

/-- `two` is finalized, and then a late certificate for `one` arrives. -/
def lateCertificateRun : List (Node.Event (Reth sampleAlloy)) :=
  sampleChainRun ++ (.report (.finalization SampleHeader.two.digest) :: forwardOne) ++
    (.report (.finalization SampleHeader.one.digest) :: forwardOne)

/-- The number falls from 2 to 1. -/
theorem late_certificate_moves_anchor_back :
    (run (prodStep sampleAlloy) (Node.start sampleConfig)
        (lateCertificateRun.take 11)).tracker.finalized = (SampleHeader.two.hash, 2) ∧
      (run (prodStep sampleAlloy) (Node.start sampleConfig)
        lateCertificateRun).tracker.finalized = (SampleHeader.one.hash, 1) ∧
      ¬ NeverFalls (createEnginePayloadBuilder sampleAlloy) (Node.start sampleConfig)
        lateCertificateRun := by
  refine ⟨by decide, by decide, fun h => ?_⟩
  exact absurd (h (lateCertificateRun.take 11) lateCertificateRun
    ⟨_, List.take_append_drop 11 _⟩ (List.prefix_refl _)) (by decide)

end Allegro
