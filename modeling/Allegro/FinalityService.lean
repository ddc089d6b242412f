import Allegro.Acceptance

/-!
# What is finalized reaches the execution layer

The finalizer skips a digest without a record, and goes on when its forkchoice update is
refused. So nothing in its code says that a finalized block ever becomes final in the
execution layer. In a cluster at service it does: the block of a record was found valid,
and a forkchoice update to a block that was found valid is answered VALID.

Results:
1. `finalized_of_settles`: how a digest with a record is settled, for one step.
2. `finalized_after_rounds`: one node, over rounds enough for what waits.
3. `outstanding_finalizations_reach_execution`: any host of a cluster at service.
-/

namespace Allegro

open Run Node

section Definitions

variable {A : Alloy}

/-- A forkchoice update of the finalizer to a block that was found valid is answered VALID. -/
def FinalizesAtService (n : Node) (v : EngineView) (e : Node.Event (Reth A)) : Prop :=
  ∀ result d hash number, e = .finalizerAnswer result → n.finalizer = .submitting d hash number →
    hash ∈ v.valid → ∃ fcu, result = .ok fcu ∧ fcu.payloadStatus.isValid = true

/-- The execution layer finalizes the block that `d` stands for: the event answers the last
forkchoice update submitted, which has it as head, safe and finalized; the answer is VALID,
and the tracker is set to the block. -/
structure FinalizesInReth (g : Genesis A) (d : Digest) (number : UInt64) (n : Node)
    (e : Node.Event (Reth A)) : Prop where
  submitted : (n.log.filterMap Output.submitted).getLast? =
    some (d, finalizeForkchoice (g.hashOf d))
  confirmed : ⟨d, g.hashOf d, number⟩ ∈ n.confirms e
  tracker : (n.prodStep A e).tracker.finalized = (g.hashOf d, number)

/-- What the step adds to the log. -/
def Node.adds (n : Node) (e : Node.Event (Reth A)) : List Output :=
  (n.prodStep A e).log.drop n.log.length

variable (A) in
/-- What a step settles with a record it settles by a finalization in the execution layer. -/
def FinalizesRecorded (g : Genesis A) (n : Node) (e : Node.Event (Reth A)) : Prop :=
  ∀ o ∈ n.adds e, ∀ d, o.settled = some d → (n.info d).isSome →
    ∃ number, o = .finalized d (g.hashOf d) number ∧ FinalizesInReth g d number n e

end Definitions

namespace FinalityServiceLemmas

open AcceptanceLemmas RefusalsLemmas FinalityLemmas

variable {A : Alloy} {g : Genesis A} {Valid : A.Block → Prop} {F : Set Digest} {n : Node}
  {v : EngineView} {e : Node.Event (Reth A)}

/-! ## One step -/

theorem adds_nil (hlog : (n.prodStep A e).log = n.log) : n.adds e = [] := by
  rw [adds, hlog, List.drop_length]

theorem adds_one {o : Output} (hlog : (n.prodStep A e).log = n.log ++ [o]) : n.adds e = [o] := by
  rw [adds, hlog, List.drop_left]

theorem finalized_of_settles (h : InService g Valid n v) (hn : AnchorsIn g F n)
    (hlast : n.AwaitsLast) (he : FinalizesAtService n v e) : FinalizesRecorded A g n e := by
  intro o ho d hd hinfo
  have hone : ∀ o', (n.prodStep A e).log = n.log ++ [o'] → o = o' := by
    intro o' hlog
    rw [adds_one hlog] at ho
    exact List.mem_singleton.mp ho
  cases moves_step (B := createEnginePayloadBuilder A) n e with
  | quiet _ _ _ _ hlog | poisoned _ _ _ _ _ _ hlog =>
    rw [adds_nil hlog] at ho
    cases ho
  | buildFcu _ _ _ _ _ hlog | forwarded _ _ _ _ _ hlog | dropped _ _ _ _ _ hlog
  | submitted _ _ _ _ _ _ hlog =>
    cases hone _ hlog
    cases hd
  | notFound _ _ hnone _ _ _ hlog =>
    cases hone _ hlog
    cases hd
    rw [hnone] at hinfo
    cases hinfo
  | @finalized _ _ hash number fcu hsub hvalid ht _ _ hlog =>
    cases hone _ hlog
    cases hd
    obtain ⟨-, rfl⟩ := hn.final.submitting _ _ _ hsub
    refine ⟨number, rfl, ?_, mem_confirms.mpr ⟨fcu, rfl, hvalid, hsub⟩, by rw [ht]⟩
    refine hlast ⟨d, g.hashOf d, number⟩ ?_
    rw [hsub]
    exact List.mem_singleton_self _
  | failed hsub hinvalid _ _ _ hlog =>
    -- the block was found valid, so the update was not refused
    obtain ⟨fcu, rfl, hvalid⟩ := he _ _ _ _ rfl hsub (h.hashes.submitting _ _ _ hsub)
    cases (hinvalid fcu rfl).symm.trans hvalid

/-! ## One node -/

theorem info_run_isSome {d : Digest} (h : (n.info d).isSome) (es : List (Node.Event (Reth A))) :
    ((run (prodStep A) n es).info d).isSome :=
  run_invariant (P := fun n : Node => (n.info d).isSome) (fun _ e hn => info_step_isSome e hn) h es

/-- Rounds enough for what was forwarded settle it, and what has a record is finalized at
a step of theirs. -/
theorem finalized_after_rounds {es : List (Node.Event (Reth A))} {k : Nat} (hl : n.Healthy)
    (hx : Along (prodStep A) (FinalizesRecorded A g) n es) (hk : 2 * n.unsettled.length ≤ k)
    (hrounds : Rounds Node.Event.finalizerTask k es) :
    ∃ more, (run (prodStep A) n es).log = n.log ++ more ∧
      n.unsettled <+: more.filterMap Output.settled ∧
      ∀ o ∈ more, ∀ d, o.settled = some d → (n.info d).isSome →
        ∃ number, o = .finalized d (g.hashOf d) number ∧
          ∃ es₁ e es₂, es = es₁ ++ e :: es₂ ∧
            FinalizesInReth g d number (run (prodStep A) n es₁) e := by
  have hlog : (run (prodStep A) n es).log = n.log ++ trace (prodStep A) Node.adds n es :=
    trace_grown Node.log (fun m e => log_grows_step m e) n es
  have hpre : n.log.filterMap Output.settled ++ List.filterMap some n.unsettled <+:
      (run (prodStep A) n es).log.filterMap Output.settled :=
    Worker.receipts_after_rounds (w := finalizerWorker (createEnginePayloadBuilder A)) hl hk hrounds
  rw [hlog, List.filterMap_append, List.filterMap_some, List.prefix_append_right_inj] at hpre
  refine ⟨_, hlog, hpre, fun o ho d hsettled hinfo => ?_⟩
  obtain ⟨es₁, e, es₂, rfl, hadds⟩ := mem_trace ho
  obtain ⟨number, hfinal, hreth⟩ := hx.at o hadds d hsettled (info_run_isSome hinfo es₁)
  exact ⟨number, hfinal, es₁, e, es₂, rfl, hreth⟩

/-! ## One host of the cluster -/

variable {ι : Type} [DecidableEq ι] {cfg : ι → Config A}
  {es : List (ι × Option (Node.Event (Reth A)))}

/-- The finalizer's tasks need no message of another host. -/
theorem receives_of_finalizerTask (e : Node.Event (Reth A)) (c : FinalizerTask)
    (h : e.finalizerTask = some c) : (servedMachine A).receives e = none := by
  cases e with
  | finalizerRecv | finalizerAnswer => rfl
  | _ => cases h

theorem awaitsLast_run
    (hserved : Along (servedHosts A).netStep
      (Machine.Local (Machine.WhileUp fun _ p e => AtService Valid p.1 p.2 e))
      (servedStart cfg) es) (i : ι) : (hostAfter cfg es i).AwaitsLast :=
  ((Machine.restarting_invariant (K := fun _ : Config A => True)
    (I := fun _ (p : Node × EngineView) => p.1.AwaitsLast) (J := fun _ : Packet => True)
    (fun _ _ _ h => absurd h List.not_mem_nil)
    (fun _ _ e _ hs _ _ => awaitsLast_step hs e) (fun _ _ _ _ _ _ _ _ => trivial)
    (fun _ => trivial) hserved).party i).2

theorem finalizesRecorded_run (hA : A.CollisionFree) (hz : A.NonZero) (hr : A.RoundTrips)
    (hcfg : ∀ i, (cfg i).genesis = g) (hfits : (A.timestamp g.header).toNat * 1000 < 2 ^ 64)
    (hserved : Along (servedHosts A).netStep
      (Machine.Local (Machine.WhileUp fun _ p e => AtService Valid p.1 p.2 e))
      (servedStart cfg) es)
    (hfinalizes : Along (servedHosts A).netStep
      (Machine.Local (Machine.WhileUp fun _ p e => FinalizesAtService p.1 p.2 e))
      (servedStart cfg) es) :
    Along (servedHosts A).netStep
      (Machine.Local (Machine.WhileUp fun _ p e => FinalizesRecorded A g p.1 e))
      (servedStart cfg) es := by
  refine along_of_splits fun es₁ ie es₂ hes => ?_
  rw [hes] at hserved hfinalizes
  have hprefix := (along_append.mp hserved).1
  obtain ⟨-, hin⟩ := (inService_run hA hz hr hcfg hfits hprefix).party ie.1
  have hanchors : AnchorsIn g Set.univ (hostAfter cfg es₁ ie.1) :=
    anchorsIn_run hA hz hr hcfg hfits hprefix (Set.mem_univ _) (fun f _ => Set.mem_univ f) ie.1
  intro e he
  exact finalized_of_settles hin hanchors (awaitsLast_run hprefix ie.1) (hfinalizes.at e he)

end FinalityServiceLemmas

open FinalityServiceLemmas

/-- In a cluster at service, after any run `es` of it: a host that stays up and takes two
rounds of the finalizer's tasks for each digest that was forwarded and is not settled
settles them in their order. For each digest that is settled there and was recorded before,
the forkchoice update to the block that it stands for was submitted and is answered VALID
at one of these steps, which sets the tracker to that block. -/
theorem outstanding_finalizations_reach_execution {A : Alloy} {ι : Type} [DecidableEq ι]
    (hA : A.CollisionFree) (hz : A.NonZero) (hr : A.RoundTrips) (g : Genesis A)
    (hfits : (A.timestamp g.header).toNat * 1000 < 2 ^ 64) (cfg : ι → Config A)
    (hcfg : ∀ i, (cfg i).genesis = g) (Valid : A.Block → Prop)
    (es es' : List (ι × Option (Node.Event (Reth A))))
    (hserved : Along (servedHosts A).netStep
      (Machine.Local (Machine.WhileUp fun _ p e => AtService Valid p.1 p.2 e))
      (servedStart cfg) (es ++ es'))
    (hfinalizes : Along (servedHosts A).netStep
      (Machine.Local (Machine.WhileUp fun _ p e => FinalizesAtService p.1 p.2 e))
      (servedStart cfg) (es ++ es'))
    (i : ι) (hup : (i, none) ∉ es') (k : Nat)
    (hk : 2 * (hostAfter cfg es i).unsettled.length ≤ k)
    (hrounds : Rounds (taskOf Node.Event.finalizerTask i) k es') :
    ∃ more, (hostAfter cfg (es ++ es') i).log = (hostAfter cfg es i).log ++ more ∧
      (hostAfter cfg es i).unsettled <+: more.filterMap Output.settled ∧
      ∀ o ∈ more, ∀ d, o.settled = some d → ((hostAfter cfg es i).info d).isSome →
        ∃ number, o = .finalized d (g.hashOf d) number ∧
          ∃ es₁ e es₂, es' = es₁ ++ (i, some e) :: es₂ ∧
            FinalizesInReth g d number (hostAfter cfg (es ++ es₁) i) e := by
  have hbefore := (along_append.mp hserved).1
  obtain ⟨-, hin⟩ := (RefusalsLemmas.inService_run hA hz hr hcfg hfits hbefore).party i
  have hrecorded := finalizesRecorded_run hA hz hr hcfg hfits hserved hfinalizes
  obtain ⟨mine, hmine, hx, hnode, hsplit⟩ :=
    AcceptanceLemmas.node_run receives_of_finalizerTask hup hrecorded hrounds
  obtain ⟨more, hlog, hpre, hfinal⟩ := finalized_after_rounds hin.sound.healthy hx hk hmine
  refine ⟨more, hnode ▸ hlog, hpre, fun o ho d hd hinfo => ?_⟩
  obtain ⟨number, hentry, before, e, after, heq, hreth⟩ := hfinal o ho d hd hinfo
  obtain ⟨es₁, es₂, hes, hstate⟩ := hsplit before e after heq
  exact ⟨number, hentry, es₁, e, es₂, hes, hstate ▸ hreth⟩

/-! ## A cluster of two -/

/-- `true` has built block `one`, and is told that it is final. -/
def reportedRun : List (Bool × Option (Node.Event (Reth sampleAlloy))) :=
  [(true, some (.enqueue (.propose (samplePropose .EMPTY 1)))), (true, some (.recv 11000)),
    (true, some .buildFcu), (true, some (.built (sampleReth .one))),
    (true, some (.report (.finalization SampleHeader.one.digest)))]

/-- Two rounds of its finalizer. -/
def forwardRun : List (Bool × Option (Node.Event (Reth sampleAlloy))) :=
  (List.replicate 2 (forwardOne.map fun e => (true, some e))).flatten

theorem reportedRun_served :
    Along (servedHosts sampleAlloy).netStep
      (Machine.Local (Machine.WhileUp fun _ p e => AtService SampleHeader.NotGenesis p.1 p.2 e))
      (servedStart fun _ : Bool => sampleConfig) (reportedRun ++ forwardRun) :=
  ⟨served_quiet rfl, served_quiet rfl, served_quiet rfl, served_build rfl (by decide) rfl rfl rfl,
    served_quiet rfl, served_quiet rfl, served_quiet rfl, served_quiet rfl, served_quiet rfl,
    trivial⟩

/-- Every answer to the finalizer is VALID. -/
theorem reportedRun_finalizes :
    Along (servedHosts sampleAlloy).netStep
      (Machine.Local (Machine.WhileUp fun _ p e => FinalizesAtService p.1 p.2 e))
      (servedStart fun _ : Bool => sampleConfig) (reportedRun ++ forwardRun) := by
  have hvalid : ∀ ie ∈ reportedRun ++ forwardRun, ∀ e, ie.2 = some e →
      ∀ result, e = .finalizerAnswer result → result = .ok ⟨.valid, none⟩ := by
    simp [reportedRun, forwardRun, forwardOne]
  refine (along_of_forall hvalid).mono fun _ _ h e he result d hash number heq _ _ => ?_
  exact ⟨_, h e he result heq, rfl⟩

theorem finalization_of_one_reaches_execution :
    ∃ number es₁ e es₂, forwardRun = es₁ ++ (true, some e) :: es₂ ∧
      FinalizesInReth sampleConfig.genesis SampleHeader.one.digest number
        (hostAfter (fun _ => sampleConfig) (reportedRun ++ es₁) true) e := by
  obtain ⟨more, -, hsettled, hfinal⟩ := outstanding_finalizations_reach_execution
    sampleAlloy_collisionFree sampleAlloy_nonZero sampleAlloy_roundTrips sampleConfig.genesis
    (by decide) (fun _ => sampleConfig) (fun _ => rfl) SampleHeader.NotGenesis reportedRun
    forwardRun reportedRun_served reportedRun_finalizes true (by simp [forwardRun, forwardOne]) 2
    (by decide) (rounds_replicate (AcceptanceLemmas.taskOf_round forwardOne_tasks) 2)
  have hone : SampleHeader.one.digest ∈ more.filterMap Output.settled :=
    hsettled.subset (by decide)
  obtain ⟨o, ho, hd⟩ := List.mem_filterMap.mp hone
  obtain ⟨number, -, hreth⟩ := hfinal o ho SampleHeader.one.digest hd (by decide)
  exact ⟨number, hreth⟩

end Allegro
