import Allegro.Node

/-!
# Finalization against verification

A finalization may be reported while the node still verifies the block. The
finalizer looks the digest up once, when it takes the report from the channel,
and skips a digest that is not recorded. So a finalization that was reported once
reaches the execution layer exactly when the block is recorded by the time the
finalizer takes the report, and no verification that completes later makes up
for it.

Results:
1. `count_reported`: with room in the channel, every report is in the channel or
   was handled, by a forkchoice update or by a skip.
2. `handled_once`: a report that is handled once is handled where it is taken, by what is
   recorded then.
3. `finalization_submitted_iff_recorded_in_time`: the two for whole runs.
4. `finalization_lost_to_verification`: the race, lost.
-/

namespace Allegro

open Run Node

section Definitions

variable {ρ : Type}

/-- A finalization is reported only when the channel has room. -/
def RoomForReport (n : Node) (e : Node.Event ρ) : Prop :=
  ∀ activity d, e = .report activity → activity.finalized = some d →
    n.sink.items.length < n.sink.cap

/-- The finalizer, if it takes a report next, takes that of `d`. -/
def TakesReport (d : Digest) (n : Node) : Prop :=
  n.finalizer = .idle ∧ n.sink.items.head? = some d

/-- The finalizer has submitted a forkchoice update for the hash recorded for `d`. -/
def SubmittedRecorded (d : Digest) (n : Node) : Prop :=
  ∃ i, n.info d = some i ∧ .finalizeFcu d (finalizeForkchoice i.hash) ∈ n.log

/-- The record of `d` is not replaced by one with another hash. -/
def KeepsHash (B : PayloadBuilder ρ) (d : Digest) (n : Node) (e : Node.Event ρ) : Prop :=
  ∀ i old, Records B n e d i → n.info d = some old → i.hash = old.hash

/-- The finalizer has dealt with `d`: it submitted a forkchoice update, or it
found no record. -/
def Output.handles (d : Digest) : Output → Bool
  | .notFound x => x = d
  | .finalizeFcu x _ => x = d
  | _ => false

end Definitions

namespace FinalizerRaceLemmas

variable {ρ : Type} {B : PayloadBuilder ρ} {n : Node} {e : Node.Event ρ} {d : Digest}

/-! ## Every report is handled -/

theorem count_reported_step {es : List (Node.Event ρ)} (hl : n.Healthy) (hroom : RoomForReport n e)
    (h : (reported es).count d = n.sink.items.count d + n.log.countP (Output.handles d)) :
    (reported (es ++ [e])).count d =
      (n.step B e).sink.items.count d + (n.step B e).log.countP (Output.handles d) := by
  have hrep : (∀ activity, e ≠ .report activity) → reported (es ++ [e]) = reported es :=
    fun hne => reported_concat_of_not_finalized fun activity he => absurd he (hne activity)
  cases moves_step (B := B) n e with
  | quiet hq _ hs _ hlog =>
    rw [reported_concat_of_not_finalized hq.report, hs, hlog, h]
  | buildFcu _ _ _ hs _ hlog =>
    rw [hrep (fun _ he => (nomatch he)), hs, hlog, h,
      List.countP_append]
    rfl
  | forwarded ha hq _ hs _ hlog =>
    rw [reported_concat_of_finalized ha, hs, hlog, (Fifo.trySend_eq_some hq).2.1,
      List.count_append, List.count_append, List.countP_append, h]
    simp only [List.countP_singleton, Output.handles]
    simp only [Bool.false_eq_true, if_false]
    omega
  | dropped ha hq _ _ _ _ =>
    exact absurd (hroom _ _ rfl ha) (Nat.not_lt.mpr (Fifo.trySend_eq_none.mp hq))
  | poisoned _ _ hp _ _ _ _ =>
    rw [hl.blockInfo] at hp
    cases hp
  | notFound _ hq _ _ hs _ hlog | submitted _ hq _ _ hs _ hlog =>
    rw [hrep (fun _ he => (nomatch he)), hs, hlog, h,
      (Fifo.next_eq_some hq).1, List.count_cons, List.countP_append, List.countP_singleton]
    simp only [Output.handles, beq_iff_eq, decide_eq_true_eq]
    omega
  | finalized _ _ _ hs _ hlog | failed _ _ _ hs _ hlog =>
    rw [hrep (fun _ he => (nomatch he)), hs, hlog, h,
      List.countP_append]
    rfl

theorem count_reported (validators : ValidatorSet) (metrics : Option ConsensusMetrics)
    (g : GenesisInfo) (senders : Nat) (es : List (Node.Event ρ))
    (hroom : Along (Node.step B) RoomForReport (Node.new validators metrics g senders) es) :
    (reported es).count d =
      (run (Node.step B) (Node.new validators metrics g senders) es).sink.items.count d +
        (run (Node.step B) (Node.new validators metrics g senders) es).log.countP
          (Output.handles d) := by
  refine trace_invariant (Node.step B) (Node.new validators metrics g senders)
    (P := fun es n => Along (Node.step B) RoomForReport (Node.new validators metrics g senders) es →
      (reported es).count d = n.sink.items.count d + n.log.countP (Output.handles d))
    (fun _ => rfl) ?_ es hroom
  intro es e ih hroom'
  obtain ⟨hes, he, _⟩ := along_append.mp hroom'
  exact count_reported_step (healthy_run validators metrics g senders es) he (ih hes)

/-! ## The step that takes the report -/

/-- What the finalizer says of the digest that it takes. -/
def takenOutput (n : Node) (d : Digest) : Output :=
  match n.info d with
  | none => .notFound d
  | some i => .finalizeFcu d (finalizeForkchoice i.hash)

theorem takenOutput_handles (n : Node) (d : Digest) : (takenOutput n d).handles d = true := by
  unfold takenOutput
  split
  · exact decide_eq_true rfl
  · exact decide_eq_true rfl

theorem log_of_takes (hl : n.Healthy) (h : TakesReport d n) :
    takenOutput n d ∈ (n.step B .finalizerRecv).log := by
  obtain ⟨q, hnext⟩ := Fifo.next_of_head h.2
  have hread : n.blockInfo.read = some n.blockInfo.value :=
    Lock.read_eq_some.mpr ⟨hl.blockInfo, rfl⟩
  have hlast : (n.step B .finalizerRecv).log = n.log ++ [takenOutput n d] := by
    unfold takenOutput
    cases hinfo : n.info d with
    | none =>
      have hlookup : n.blockInfo.value.lookup d = none := hinfo
      simp only [step, h.1, hnext, finalizeStart, hread, hlookup]
    | some i =>
      have hlookup : n.blockInfo.value.lookup d = some i := hinfo
      simp only [step, h.1, hnext, finalizeStart, hread, hlookup]
  rw [hlast]
  exact List.mem_append_right _ (List.mem_singleton_self _)

/-- An output that handles `d` is said where its report is taken. -/
theorem takes_of_handles {start : Node} (es : List (Node.Event ρ)) (hstart : start.log = [])
    {o : Output} (ho : o ∈ (run (Node.step B) start es).log) (hh : o.handles d = true) :
    ∃ es₁ es₂, es = es₁ ++ .finalizerRecv :: es₂ ∧ TakesReport d (run (Node.step B) start es₁) := by
  induction es using List.reverseRecOn with
  | nil =>
    rw [show (run (Node.step B) start []).log = [] from hstart] at ho
    cases ho
  | append_singleton es e ih =>
    rw [run_concat] at ho
    rcases mem_log_step ho with hold | hnew
    · obtain ⟨es₁, es₂, rfl, htakes⟩ := ih hold
      exact ⟨es₁, es₂ ++ [e], List.append_assoc _ _ _, htakes⟩
    · cases hnew with
      | notFound hidle hnext _ | submitted hidle hnext _ =>
        cases of_decide_eq_true hh
        exact ⟨es, [], rfl, hidle, by rw [(Fifo.next_eq_some hnext).1]; rfl⟩
      | _ => cases hh

section Once

variable {validators : ValidatorSet} {metrics : Option ConsensusMetrics} {g : GenesisInfo}
  {senders : Nat} {es es₁ es₂ : List (Node.Event ρ)}

/-- A report that was handled once was handled where it was taken, and nowhere else. -/
theorem handled_once
    (hone : (run (Node.step B) (Node.new validators metrics g senders) es).log.countP
      (Output.handles d) = 1)
    (hes : es = es₁ ++ .finalizerRecv :: es₂)
    (htakes : TakesReport d (run (Node.step B) (Node.new validators metrics g senders) es₁))
    {o : Output} (hh : o.handles d = true) :
    o ∈ (run (Node.step B) (Node.new validators metrics g senders) es).log ↔
      o = takenOutput (run (Node.step B) (Node.new validators metrics g senders) es₁) d := by
  have hl := healthy_run (B := B) validators metrics g senders es₁
  have htaken : takenOutput (run (Node.step B) (Node.new validators metrics g senders) es₁) d ∈
      (run (Node.step B) (Node.new validators metrics g senders) es).log := by
    rw [hes, run_append, run_cons]
    exact (log_grows_run _ es₂).subset (log_of_takes hl htakes)
  rw [List.countP_eq_length_filter] at hone
  obtain ⟨only, honly⟩ := List.length_eq_one_iff.mp hone
  have hsame : ∀ o' ∈ (run (Node.step B) (Node.new validators metrics g senders) es).log,
      o'.handles d = true → o' = only := by
    intro o' hmem hh'
    have hf := List.mem_filter.mpr ⟨hmem, hh'⟩
    rw [honly] at hf
    exact List.mem_singleton.mp hf
  constructor
  · intro hmem
    rw [hsame o hmem hh, hsame _ htaken (takenOutput_handles _ d)]
  · rintro rfl
    exact htaken

end Once

/-! ## The hash submitted -/

/-- A hash that is not replaced is the one recorded at the end. -/
theorem hash_kept {i : BlockInfo} (hi : n.info d = some i) {es : List (Node.Event ρ)}
    (hk : Along (Node.step B) (KeepsHash B d) n es) :
    ∃ i', (run (Node.step B) n es).info d = some i' ∧ i'.hash = i.hash := by
  refine hk.invariant (P := fun n : Node => ∃ i', n.info d = some i' ∧ i'.hash = i.hash) ?_
    ⟨i, hi, rfl⟩
  rintro n e ⟨i', hi', hhash⟩ hkeep
  obtain ⟨i'', hi'', rfl | hrec⟩ := Node.info_step_some (B := B) e hi'
  · exact ⟨i'', hi'', hhash⟩
  · exact ⟨i'', hi'', (hkeep i'' i' hrec hi').trans hhash⟩

end FinalizerRaceLemmas

open FinalizerRaceLemmas

/-- In every run, with any payload builder, in which `d` is reported as finalized
once, the channel has room at every report, and the channel is drained at the
end: the finalizer takes the report at some step. It has submitted a forkchoice update for
the hash recorded for `d` exactly if `d` was recorded at that step, under the hash
that it has at the end. So if from that step on `d` is not recorded again with another
hash, it has exactly if `d` was recorded at that step. -/
theorem finalization_submitted_iff_recorded_in_time {ρ : Type} (B : PayloadBuilder ρ)
    (validators : ValidatorSet) (metrics : Option ConsensusMetrics) (g : GenesisInfo)
    (senders : Nat) (es : List (Node.Event ρ)) (d : Digest) (honce : (reported es).count d = 1)
    (hroom : Along (Node.step B) RoomForReport (Node.new validators metrics g senders) es)
    (hdrained : (run (Node.step B) (Node.new validators metrics g senders) es).sink.items = []) :
    let start := Node.new validators metrics g senders
    let n := run (Node.step B) start es
    (∃ es₁ es₂, es = es₁ ++ .finalizerRecv :: es₂ ∧ TakesReport d (run (Node.step B) start es₁)) ∧
    ∀ es₁ es₂, es = es₁ ++ .finalizerRecv :: es₂ → TakesReport d (run (Node.step B) start es₁) →
      (SubmittedRecorded d n ↔
        ∃ i i', (run (Node.step B) start es₁).info d = some i ∧ n.info d = some i' ∧
          i'.hash = i.hash) ∧
      (Along (Node.step B) (KeepsHash B d) (run (Node.step B) start es₁)
          (.finalizerRecv :: es₂) →
        (SubmittedRecorded d n ↔ ((run (Node.step B) start es₁).info d).isSome)) := by
  intro start n
  have hcount : n.log.countP (Output.handles d) = 1 := by
    have hall := count_reported (d := d) validators metrics g senders es hroom
    rw [honce, hdrained, List.count_nil, Nat.zero_add] at hall
    exact hall.symm
  refine ⟨?_, fun es₁ es₂ hes htakes => ?_⟩
  · obtain ⟨o, ho, hh⟩ := List.countP_pos_iff.mp (hcount ▸ Nat.one_pos)
    exact takes_of_handles es rfl ho hh
  · have hiff : SubmittedRecorded d n ↔
        ∃ i i', (run (Node.step B) start es₁).info d = some i ∧ n.info d = some i' ∧
          i'.hash = i.hash := by
      have honly : ∀ state, .finalizeFcu d state ∈ n.log ↔
          .finalizeFcu d state = takenOutput (run (Node.step B) start es₁) d :=
        fun state => handled_once hcount hes htakes (decide_eq_true rfl)
      constructor
      · rintro ⟨i', hi', hmem⟩
        have htaken := (honly _).mp hmem
        unfold takenOutput at htaken
        split at htaken
        · cases htaken
        · next i hi =>
          injection htaken with _ hstate
          injection hstate with hhash
          exact ⟨i, i', hi, hi', hhash⟩
      · rintro ⟨i, i', hi, hi', hhash⟩
        refine ⟨i', hi', (honly _).mpr ?_⟩
        rw [takenOutput, hi, hhash]
    refine ⟨hiff, fun hkeep => ⟨fun h => ?_, fun hrecorded => hiff.mpr ?_⟩⟩
    · obtain ⟨i, _, hi, -, -⟩ := hiff.mp h
      exact Option.isSome_iff_exists.mpr ⟨i, hi⟩
    · obtain ⟨i, hi⟩ := Option.isSome_iff_exists.mp hrecorded
      obtain ⟨i', hi', hhash⟩ := hash_kept hi hkeep
      rw [← run_append, ← hes] at hi'
      exact ⟨i, i', hi, hi', hhash⟩

/-! ## Two runs -/

/-- The finalization of `one` is reported while its verification runs, and taken
after it. -/
def raceWonRun : List (Node.Event (Reth sampleAlloy)) :=
  [.blockMessage (wireMessage SampleHeader.one.digest [2]),
    .enqueue (.verify (sampleVerify .EMPTY SampleHeader.one.digest 1)), .recv 0,
    .report (.finalization SampleHeader.one.digest), .validated (sampleReth .one), .finalizerRecv]

/-- The same, but the report is taken while the verification still runs. -/
def raceLostRun : List (Node.Event (Reth sampleAlloy)) :=
  [.blockMessage (wireMessage SampleHeader.one.digest [2]),
    .enqueue (.verify (sampleVerify .EMPTY SampleHeader.one.digest 1)), .recv 0,
    .report (.finalization SampleHeader.one.digest), .finalizerRecv, .validated (sampleReth .one)]

theorem finalization_submitted_after_verification :
    SubmittedRecorded SampleHeader.one.digest
      (run (prodStep sampleAlloy) (Node.start sampleConfig) raceWonRun) := by
  refine (((finalization_submitted_iff_recorded_in_time (createEnginePayloadBuilder sampleAlloy)
    _ none _ 1 raceWonRun SampleHeader.one.digest (by decide) ?_ (by decide)).2
    (raceWonRun.take 5) [] rfl ⟨by decide, by decide⟩).2 ?_).mpr (by decide)
  · refine ⟨?_, ?_, ?_, ?_, ?_, ?_, trivial⟩
    all_goals
      rintro activity d he _
      cases he
    decide
  · exact ⟨fun _ _ hrec => (nomatch hrec), trivial⟩

/-- The node answers `true` for `one` and has it on record, `one` was reported as
finalized once with room in the channel, everything is drained, and no forkchoice
update for `one` was submitted. -/
theorem finalization_lost_to_verification :
    let n := run (prodStep sampleAlloy) (Node.start sampleConfig) raceLostRun
    (reported raceLostRun).count SampleHeader.one.digest = 1 ∧
      Along (prodStep sampleAlloy) RoomForReport (Node.start sampleConfig) raceLostRun ∧
      n.answers = [.verified (sampleVerify .EMPTY SampleHeader.one.digest 1) true] ∧
      n.info SampleHeader.one.digest = some ⟨1, SampleHeader.one.hash, 1, sampleKey, 11, 11000⟩ ∧
      n.receiver = [] ∧ n.stage = .idle ∧ n.sink.items = [] ∧ n.finalizer = .idle ∧
      ∀ state, .finalizeFcu SampleHeader.one.digest state ∉ n.log := by
  refine ⟨by decide, ?_, by decide, by decide, by decide, by decide, by decide, by decide, ?_⟩
  · refine ⟨?_, ?_, ?_, ?_, ?_, ?_, trivial⟩
    all_goals
      rintro activity d he _
      cases he
    decide
  · intro state hmem
    have hlog : (run (prodStep sampleAlloy) (Node.start sampleConfig) raceLostRun).log =
        [.forwarded SampleHeader.one.digest, .notFound SampleHeader.one.digest] := by decide
    rw [hlog] at hmem
    simp at hmem

end Allegro
