import Allegro.Lib.Accounting
import Allegro.Node

/-!
# Do the metrics account for every request?

`handle_verify` counts when it answers: every `true` as a verified block, every
`false` as a failed validation. `handle_propose` counts a proposed block when it
starts, before the builder is asked. So `blocks_proposed` counts the `Propose`s
that were taken, and runs ahead of the proposals by one for each failed build.

The counters have 64 bits and wrap around, so a count is known up to a multiple of 2^64.

Results:
1. `counts_step`: what the counters hold, across one step of any task.
2. `unanswered_run`: a `Propose` stays unanswered exactly when its build fails.
3. `metrics_account_iff`: the counters agree with the answers exactly if no build has
   failed, or 2^64 of them, or a multiple.
4. `failed_build_counted`: a build that fails is counted as a proposed block.
-/

namespace Allegro

open Run Actor

/-! ## Answers by kind -/

namespace Answer

def isDigest : Answer → Bool
  | proposed _ (some _) => true
  | _ => false

def isUnanswered : Answer → Bool
  | proposed _ none => true
  | _ => false

def isTrue : Answer → Bool
  | verified _ valid => valid
  | _ => false

def isFalse : Answer → Bool
  | verified _ valid => !valid
  | _ => false

end Answer

/-- The metrics `m` account for the requests that were answered. -/
structure Accounts (s : App) (m : ConsensusMetrics) : Prop where
  proposed : m.blocksProposed = .ofNat (s.answers.countP Answer.isDigest)
  listed : m.blocksProposed = .ofNat s.proposals.value.length
  verified : m.blocksVerified = .ofNat (s.answers.countP Answer.isTrue)
  failed : m.failedValidations = .ofNat (s.answers.countP Answer.isFalse)

/-- The builds that a step fails, with the reason. -/
def App.failedBuilds (s : App) : App.Event → List String
  | .built (.error reason) =>
    match s.stage with
    | .building _ _ => [reason]
    | _ => []
  | _ => []

/-! ## Counters -/

/-- The counter after `n` increments. -/
def bump (n : Nat) (counter : UInt64) : UInt64 := (· + 1)^[n] counter

@[simp] theorem bump_zero (counter : UInt64) : bump 0 counter = counter := rfl

theorem bump_eq (n : Nat) (counter : UInt64) : bump n counter = counter + .ofNat n := by
  induction n generalizing counter with
  | zero => exact (UInt64.add_zero counter).symm
  | succ n ih =>
    show bump n (counter + 1) = _
    rw [ih, UInt64.ofNat_add, UInt64.add_comm (.ofNat n), UInt64.add_assoc]
    rfl

theorem bump_ofNat (n k : Nat) : bump n (.ofNat k) = .ofNat (k + n) := by
  rw [bump_eq, UInt64.ofNat_add]

/-- Increments can be taken back. -/
theorem eq_ofNat_of_bump {n k : Nat} {counter : UInt64} (h : bump n counter = .ofNat (k + n)) :
    counter = .ofNat k := by
  rw [bump_eq, UInt64.ofNat_add] at h
  exact (UInt64.add_left_inj _).mp h

/-- A count that is added does not show exactly if it is a multiple of 2^64. -/
theorem ofNat_add_eq_iff (k n : Nat) :
    UInt64.ofNat (k + n) = UInt64.ofNat k ↔ 2 ^ 64 ∣ n := by
  rw [UInt64.ofNat_add, UInt64.add_eq_left, UInt64.ofNat_eq_iff_mod_eq_toNat,
    Nat.dvd_iff_mod_eq_zero]
  rfl

namespace MetricsLemmas

/-- The builds in progress. -/
def inProgress : Stage → Nat
  | .building _ _ => 1
  | _ => 0

/-- What the counters hold in every state. A `Propose` is counted when it is
taken. -/
structure Counts (s : App) (m : ConsensusMetrics) : Prop where
  metrics : s.metrics = some m
  proposed : m.blocksProposed = .ofNat
    (s.answers.countP Answer.isDigest + s.answers.countP Answer.isUnanswered + inProgress s.stage)
  listed : s.proposals.value.length = s.answers.countP Answer.isDigest
  verified : m.blocksVerified = .ofNat (s.answers.countP Answer.isTrue)
  failed : m.failedValidations = .ofNat (s.answers.countP Answer.isFalse)

variable {s s' : App} {m : ConsensusMetrics} {e : App.Event}

/-! ## Steps that answer nothing -/

/-- Nothing is answered or built, and other counters move at most. -/
theorem Counts.frame {m' : ConsensusMetrics} (h : Counts s m) (hm : s'.metrics = some m')
    (hp : m'.blocksProposed = m.blocksProposed) (hv : m'.blocksVerified = m.blocksVerified)
    (hf : m'.failedValidations = m.failedValidations) (hans : s'.answers = s.answers)
    (hstage : inProgress s'.stage = inProgress s.stage)
    (hlist : s'.proposals.value = s.proposals.value) : Counts s' m' where
  metrics := hm
  proposed := by rw [hp, h.proposed, hans, hstage]
  listed := by rw [hlist, h.listed, hans]
  verified := by rw [hv, h.verified, hans]
  failed := by rw [hf, h.failed, hans]

theorem counts_receiveBlock (data : Bytes) (h : Counts s m) :
    ∃ m', Counts { s with toActor := receiveBlock s.toActor data } m' := by
  have hm : (receiveBlock s.toActor data).metrics = some m ∨
      (receiveBlock s.toActor data).metrics = some m.incErrors ∨
      (receiveBlock s.toActor data).metrics = some m.incBlocksReceived := by
    unfold receiveBlock
    split
    · exact .inl h.metrics
    · split
      · exact .inr (.inl (congrArg (Option.map _) h.metrics))
      · exact .inr (.inr (congrArg (Option.map _) h.metrics))
  have hlist := congrArg Lock.value (receiveBlock_frame s.toActor data).2.2.1
  rcases hm with hm | hm | hm
  · exact ⟨_, h.frame hm rfl rfl rfl rfl rfl hlist⟩
  · exact ⟨_, h.frame hm rfl rfl rfl rfl rfl hlist⟩
  · exact ⟨_, h.frame hm rfl rfl rfl rfl rfl hlist⟩

theorem counts_broadcast {a : Actor} {digest : Digest} {plan : Plan} {transport : Transport}
    {submission : Option Submission} (h : Counts s m)
    (hb : BlockRelay.broadcast s.toActor digest plan transport = some (a, submission)) :
    ∃ m', Counts { s with toActor := a } m' := by
  have hm : a.metrics = some m ∨ a.metrics = some m.incErrors ∨
      a.metrics = some m.incBlocksBroadcast := by
    obtain ⟨pending, _, hb⟩ := Option.map_eq_some_iff.mp hb
    split at hb
    · cases hb
      exact .inl h.metrics
    · split at hb
      · cases hb
        cases transport.accepted with
        | true => exact .inr (.inr (congrArg (Option.map _) h.metrics))
        | false => exact .inr (.inl (congrArg (Option.map _) h.metrics))
      · cases hb
        exact .inr (.inl (congrArg (Option.map _) h.metrics))
  have hlist := congrArg Lock.value (App.broadcast_sameStores hb).proposals
  rcases hm with hm | hm | hm
  · exact ⟨_, h.frame hm rfl rfl rfl rfl rfl hlist⟩
  · exact ⟨_, h.frame hm rfl rfl rfl rfl rfl hlist⟩
  · exact ⟨_, h.frame hm rfl rfl rfl rfl rfl hlist⟩

/-! ## Steps that answer -/

theorem countP_concat (p : Answer → Bool) (answers : List Answer) (answer : Answer) :
    (answers ++ [answer]).countP p = answers.countP p + (p answer).toNat := by
  rw [List.countP_append, List.countP_singleton]
  cases p answer <;> rfl

/-- A request is answered, and the counters move by what its answer is. A build
that ends was counted before. -/
theorem Counts.answered {a : Answer} {m' : ConsensusMetrics} (h : Counts s m)
    (hm : s'.metrics = some m')
    (hp : bump (inProgress s.stage) m'.blocksProposed =
      bump (a.isDigest.toNat + a.isUnanswered.toNat) m.blocksProposed)
    (hv : m'.blocksVerified = bump a.isTrue.toNat m.blocksVerified)
    (hf : m'.failedValidations = bump a.isFalse.toNat m.failedValidations)
    (hans : s'.answers = s.answers ++ [a]) (hstage : s'.stage = .idle)
    (hlist : s'.proposals.value.length = s.proposals.value.length + a.isDigest.toNat) :
    Counts s' m' where
  metrics := hm
  proposed := by
    rw [h.proposed, bump_ofNat] at hp
    have hzero : inProgress s'.stage = 0 := by rw [hstage]; rfl
    rw [hans, hzero, countP_concat, countP_concat]
    refine eq_ofNat_of_bump (n := inProgress s.stage) (hp.trans (congrArg UInt64.ofNat ?_))
    omega
  listed := by rw [hlist, h.listed, hans, countP_concat]
  verified := by rw [hv, h.verified, bump_ofNat, hans, countP_concat]
  failed := by rw [hf, h.failed, bump_ofNat, hans, countP_concat]

/-- A `Verify` is answered `false` and counted as failed. -/
theorem Counts.rejected {msg : Verify} {m' : ConsensusMetrics} (h : Counts s m)
    (hzero : inProgress s.stage = 0) (hm : s'.metrics = some m')
    (hp : m'.blocksProposed = m.blocksProposed) (hv : m'.blocksVerified = m.blocksVerified)
    (hf : m'.failedValidations = bump 1 m.failedValidations)
    (hans : s'.answers = s.answers ++ [.verified msg false]) (hstage : s'.stage = .idle)
    (hlist : s'.proposals.value = s.proposals.value) : Counts s' m' :=
  h.answered (a := .verified msg false) hm (by rw [hp, hzero]; rfl) hv hf hans hstage
    (congrArg List.length hlist)

/-- What the lookup of a `Verify` counts when it answers. -/
theorem verifyLookup_counts {a a' : Actor} {msg : Verify} {valid : Bool}
    (hl : a.pendingBlocks.poisoned = false) (h : a.verifyLookup msg = (a', .answer valid)) :
    a' = a.count .incFailedValidations ∧ valid = false := by
  have hread : a.pendingBlocks.read = some a.pendingBlocks.value :=
    Lock.read_eq_some.mpr ⟨hl, rfl⟩
  unfold verifyLookup at h
  rw [hread] at h
  split at h
  · cases h
    exact ⟨rfl, rfl⟩
  · simp only at h
    split at h
    · cases h
      exact ⟨rfl, rfl⟩
    · cases h

theorem counts_receive {nowMillis : UInt64} {msg : Message} (hl : s.Healthy)
    (hidle : s.stage = .idle) (h : Counts s m) : ∃ m', Counts (s.receive nowMillis msg) m' := by
  have hzero : inProgress s.stage = 0 := by rw [hidle]; rfl
  cases msg with
  | propose msg =>
    simp only [App.receive, proposeRequest_eq hl.blockInfo]
    refine ⟨m.incBlocksProposed, congrArg (Option.map _) h.metrics, ?_, h.listed, h.verified,
      h.failed⟩
    have hp := h.proposed
    rw [hzero] at hp
    show bump 1 m.blocksProposed = _
    rw [hp, bump_ofNat]
    rfl
  | verify msg =>
    simp only [App.receive]
    split
    · next a valid hlookup =>
      obtain ⟨rfl, rfl⟩ := verifyLookup_counts hl.pendingBlocks hlookup
      exact ⟨m.incFailedValidations, h.rejected hzero (congrArg (Option.map _) h.metrics) rfl rfl
        rfl rfl rfl rfl⟩
    · next a bytes ph hlookup =>
      obtain ⟨_, _, _, _, rfl⟩ := verifyLookup_eq_validate hlookup
      exact ⟨m, h.frame h.metrics rfl rfl rfl rfl hzero.symm rfl⟩
  | broadcast msg => exact ⟨m, h⟩

theorem counts_finishPropose {msg : Propose} {req : BuildPayloadRequest} (hl : s.Healthy)
    (hstage : s.stage = .building msg req) (result : Except String BuiltPayload)
    (h : Counts s m) : ∃ m', Counts (s.finishPropose msg req result) m' := by
  have hone : inProgress s.stage = 1 := by rw [hstage]; rfl
  cases result with
  | error reason =>
    refine ⟨m.incErrors, h.answered (a := .proposed msg none) ?_ ?_ rfl rfl rfl rfl rfl⟩
    · exact congrArg (Option.map _) h.metrics
    · rw [hone]
      rfl
  | ok payload =>
    have hpush : (s.finishPropose msg req (.ok payload)).proposals.value =
        s.proposals.value ++ [⟨payload.blockHash⟩] := by
      exact Lock.modify_value hl.proposals _
    refine ⟨m, h.answered (a := .proposed msg (some ⟨payload.blockHash⟩)) h.metrics ?_ rfl rfl
      rfl rfl ?_⟩
    · rw [hone]
      rfl
    · rw [hpush, List.length_append]
      rfl

theorem counts_finishVerify {msg : Verify} (hzero : inProgress s.stage = 0)
    (result : Except String ValidationResult) (h : Counts s m) :
    ∃ m', Counts (s.finishVerify msg result) m' := by
  match result with
  | .ok (.valid b) =>
    by_cases hagree : timestampsAgree b = true
    · simp only [App.finishVerify, verifyRecord_accepts s.toActor msg hagree]
      refine ⟨m.incBlocksVerified, h.answered (a := .verified msg true) ?_ ?_ rfl rfl rfl rfl
        rfl⟩
      · exact congrArg (Option.map _) h.metrics
      · rw [hzero]
        rfl
    · simp only [App.finishVerify, verifyRecord_disagrees s.toActor msg hagree]
      exact ⟨m.incFailedValidations, h.rejected hzero (congrArg (Option.map _) h.metrics) rfl rfl
        rfl rfl rfl rfl⟩
  | .ok (.invalid _) =>
    exact ⟨m.incFailedValidations, h.rejected hzero (congrArg (Option.map _) h.metrics) rfl rfl
      rfl rfl rfl rfl⟩
  | .error _ =>
    refine ⟨m.incErrors.incFailedValidations, h.rejected hzero ?_ rfl rfl rfl rfl rfl rfl⟩
    show (s.metrics.map _).map _ = _
    rw [h.metrics]
    rfl

/-- Every step of every task keeps the count. -/
theorem counts_step (hl : s.Healthy) (h : Counts s m) : ∃ m', Counts (s.step e) m' := by
  cases e with
  | enqueue msg => exact ⟨m, h.frame h.metrics rfl rfl rfl rfl rfl rfl⟩
  | recv nowMillis =>
    simp only [App.step]
    split
    · next msg rest hidle _ =>
      exact counts_receive (s := { s with receiver := rest })
        ⟨hl.proposals, hl.pendingBlocks, hl.receivedBlocks, hl.blockInfo⟩ hidle
        (h.frame h.metrics rfl rfl rfl rfl rfl rfl)
    · exact ⟨m, h⟩
  | built result =>
    simp only [App.step]
    split
    · next msg req hstage => exact counts_finishPropose hl hstage result h
    · exact ⟨m, h⟩
  | validated result =>
    simp only [App.step]
    split
    · next msg bytes ph hstage =>
      exact counts_finishVerify (by rw [hstage]; rfl) result h
    · exact ⟨m, h⟩
  | blockMessage data => exact counts_receiveBlock data h
  | blockChannelError =>
    exact ⟨m.incErrors, h.frame (congrArg (Option.map _) h.metrics) rfl rfl rfl rfl rfl rfl⟩
  | broadcast digest plan transport =>
    simp only [App.step]
    split
    · next a submission hb => exact counts_broadcast h hb
    · exact ⟨m, h⟩
  | report activity =>
    simp only [App.step]
    split
    · exact ⟨m.incBlocksFinalized,
        h.frame (congrArg (Option.map _) h.metrics) rfl rfl rfl rfl rfl rfl⟩
    · exact ⟨m, h⟩

/-! ## Builds that fail -/

/-- A step leaves a `Propose` unanswered exactly when it is the failure of its build. -/
theorem unanswered_step (hl : s.Healthy) (e : App.Event) :
    (s.step e).answers.countP Answer.isUnanswered =
      s.answers.countP Answer.isUnanswered + (s.failedBuilds e).length := by
  rcases App.answers_step s e with hans | ⟨answer, hresp, hans⟩
  · have hnone : s.failedBuilds e = [] := by
      unfold App.failedBuilds
      split
      · split
        · next reason msg req hstage =>
          -- the failure would be answered
          simp only [App.step, hstage, App.finishPropose, proposeRecord, App.respond] at hans
          exact absurd hans (by simp)
        · rfl
      · rfl
    rw [hans, hnone, List.length_nil, Nat.add_zero]
  · rw [hans, countP_concat]
    congr 1
    cases hresp with
    | dropped _ _ hpoisoned =>
      rw [hl.blockInfo] at hpoisoned
      cases hpoisoned
    | failed hstage => simp only [App.failedBuilds, hstage]; rfl
    | rejected | proposed | refused | accepted => rfl

theorem unanswered_run (validators : ValidatorSet) (metrics : Option ConsensusMetrics)
    (g : GenesisInfo) (es : List App.Event) :
    (run App.step (App.new validators metrics g) es).answers.countP Answer.isUnanswered =
      (trace App.step App.failedBuilds (App.new validators metrics g) es).length := by
  induction es using List.reverseRecOn with
  | nil => rfl
  | append_singleton es e ih =>
    rw [run_concat, unanswered_step (App.healthy_run validators metrics g es), ih, trace_concat,
      List.length_append]

end MetricsLemmas

open MetricsLemmas

/-- In every run of an actor with metrics that ends between two messages, the
counters account for the requests exactly if the number of builds of the run that
have failed is a multiple of 2^64. Below that, none may have failed. -/
theorem metrics_account_iff (validators : ValidatorSet) (g : GenesisInfo)
    (es : List App.Event) :
    let start := App.new validators (some {}) g
    let s := run App.step start es
    s.stage = .idle →
      ((∃ m, s.metrics = some m ∧ Accounts s m) ↔
        2 ^ 64 ∣ (trace App.step App.failedBuilds start es).length) := by
  intro start s hidle
  obtain ⟨⟨m, hm⟩, _⟩ : (∃ m, Counts s m) ∧ s.Healthy := by
    refine run_invariant (P := fun s : App => (∃ m, Counts s m) ∧ s.Healthy) ?_ ?_ es
    · rintro s e ⟨⟨m, hm⟩, hl⟩
      exact ⟨counts_step hl hm, App.healthy_step e hl⟩
    · exact ⟨⟨{}, rfl, rfl, rfl, rfl, rfl⟩, App.healthy_new validators (some {}) g⟩
  have hproposed := hm.proposed
  rw [hidle, unanswered_run validators (some {}) g es] at hproposed
  rw [← ofNat_add_eq_iff (s.answers.countP Answer.isDigest)]
  constructor
  · rintro ⟨m', hm', hacc⟩
    cases hm.metrics.symm.trans hm'
    exact hproposed.symm.trans hacc.proposed
  · intro hsame
    have hcount := hproposed.trans hsame
    exact ⟨m, hm.metrics, hcount, by rw [hcount, hm.listed], hm.verified, hm.failed⟩

/-! ## Two runs -/

/-- Block `one` is proposed. -/
def builtRun : List App.Event :=
  [.enqueue (.propose (samplePropose .EMPTY 1)), .recv 11000,
    .built (.ok ⟨[2], SampleHeader.one.hash, 1, 11000⟩)]

/-- The build of a `Propose` fails. -/
def failedRun : List App.Event :=
  [.enqueue (.propose (samplePropose .EMPTY 1)), .recv 11000, .built (.error "no payload")]

theorem successful_build_accounted :
    (run App.step (App.new sampleValidators (some {}) sampleGenesisInfo) builtRun).stage = .idle ∧
      ∃ m, (run App.step (App.new sampleValidators (some {}) sampleGenesisInfo) builtRun).metrics =
        some m ∧
        Accounts (run App.step (App.new sampleValidators (some {}) sampleGenesisInfo) builtRun)
          m := by
  refine ⟨by decide, ?_⟩
  exact (metrics_account_iff sampleValidators sampleGenesisInfo builtRun (by decide)).mpr
    (by decide)

/-- One proposed block is counted, and there is no proposal. -/
theorem failed_build_counted :
    let s := run App.step (App.new sampleValidators (some {}) sampleGenesisInfo) failedRun
    s.stage = .idle ∧ s.metrics.map ConsensusMetrics.blocksProposed = some 1 ∧
      s.proposals.value = [] ∧ s.answers = [.proposed (samplePropose .EMPTY 1) none] ∧
      ¬ ∃ m, s.metrics = some m ∧ Accounts s m := by
  intro s
  have hcount : s.metrics.map ConsensusMetrics.blocksProposed = some 1 := by decide
  have hlist : s.proposals.value = [] := by decide
  refine ⟨by decide, hcount, hlist, by decide, ?_⟩
  rintro ⟨m, hm, hacc⟩
  rw [hm, Option.map_some, hacc.listed, hlist] at hcount
  exact absurd hcount (by decide)

end Allegro
