import Allegro.Cluster
import Allegro.Finality

/-!
# The execution layers agree on finality

Consensus finalizes digests, the execution layer finalizes hashes. In between, a
finalizer looks each digest up, a tracker keeps the last answer, and every build
passes on what the tracker holds. Each of these runs at its own pace on every
host, reports are dropped, and hosts restart.

Simplex safety says that the digests that are reported as finalized, by any host
at any time, are on one chain of proposals from genesis. Then all that the hosts
submit to their execution layers as finalized, and all that their trackers hold,
is on one chain of blocks.

Results:
1. `final_step`: a node submits only hashes of reported digests, and genesis.
2. `exec_of_proposed`: a chain of proposals is a chain of blocks.
3. `execution_layers_agree`: the result above, for any two hosts at any two points.
-/

namespace Allegro

open Run Node Relation

section Definitions

/-- The hash that a forkchoice update finalizes. -/
def Output.finalizedHash : Output → Option B256
  | .buildFcu _ state => some state.finalizedBlockHash
  | .finalizeFcu _ state => some state.finalizedBlockHash
  | _ => none

/-- What the node has submitted as finalized since it started, and what its
tracker holds. -/
def Node.finalizedHashes (n : Node) : List B256 :=
  n.tracker.finalized.1 :: n.log.filterMap Output.finalizedHash

variable {A : Alloy} {ι : Type}

/-- The digest that an event reports as finalized. -/
def Node.Event.finalized {ρ : Type} : Node.Event ρ → Option Digest
  | .report activity => activity.finalized
  | _ => none

/-- The digests that are reported as finalized in a run of the cluster. -/
def clusterReported (es : List (ι × Option (Node.Event (Reth A)))) : List Digest :=
  es.filterMap fun ie => ie.2.bind Node.Event.finalized

/-- Some node has proposed `d` on `p`. -/
def Proposed (wire : List Packet) (p d : Digest) : Prop := .proposal p d ∈ wire

/-- One of the two is an ancestor of the other, or they are the same. -/
def OnOneChain {α : Type} (parent : α → α → Prop) (x y : α) : Prop :=
  ReflTransGen parent x y ∨ ReflTransGen parent y x

/-- The digests reported as finalized are on one chain of proposals from genesis. -/
structure SimplexSafety [DecidableEq ι] (cfg : ι → Config A)
    (es : List (ι × Option (Node.Event (Reth A)))) : Prop where
  rooted : ∀ f ∈ clusterReported es,
    ReflTransGen (Proposed (run (hosts A).netStep (clusterStart cfg) es).wire) Digest.EMPTY f
  chain : ∀ f ∈ clusterReported es, ∀ f' ∈ clusterReported es,
    OnOneChain (Proposed (run (hosts A).netStep (clusterStart cfg) es).wire) f f'

/-- The node finalizes blocks of the digests `F` only, in all the hands that a
finalization passes through. -/
structure Final (g : Genesis A) (F : Set Digest) (n : Node) : Prop where
  sink : ∀ f ∈ n.sink.items, f ∈ F
  submitting : ∀ f hash number, n.finalizer = .submitting f hash number → f ∈ F ∧ hash = g.hashOf f
  tracker : ∃ f ∈ F, n.tracker.finalized.1 = g.hashOf f
  log : ∀ o ∈ n.log, ∀ x, o.finalizedHash = some x → ∃ f ∈ F, x = g.hashOf f

end Definitions

namespace ClusterFinalityLemmas

variable {A : Alloy} {g : Genesis A} {n : Node} {e : Node.Event (Reth A)} {F : Set Digest}

/-! ## One node -/

theorem final_start {c : Config A} (hc : c.genesis = g) (hF : Digest.EMPTY ∈ F) :
    Final g F (Node.start c) where
  sink := fun _ h => absurd h List.not_mem_nil
  submitting := fun _ _ _ h => nomatch h
  tracker := by
    refine ⟨Digest.EMPTY, hF, ?_⟩
    rw [ClusterLemmas.hashOf_empty, ← hc]
    rfl
  log := fun _ h => absurd h List.not_mem_nil

theorem finalized_log (h : Final g F n) {n' : Node} {o : Output} (hlog : n'.log = n.log ++ [o])
    (ho : ∀ x, o.finalizedHash = some x → ∃ f ∈ F, x = g.hashOf f) :
    ∀ o ∈ n'.log, ∀ x, o.finalizedHash = some x → ∃ f ∈ F, x = g.hashOf f := by
  intro o' ho' x hx
  rw [hlog] at ho'
  rcases List.mem_append.mp ho' with hold | hnew
  · exact h.log o' hold x hx
  · rw [List.mem_singleton.mp hnew] at hx
    exact ho x hx

theorem final_step (hs : Sound g n) (h : Final g F n) (hF : ∀ d, e.finalized = some d → d ∈ F) :
    Final g F (n.prodStep A e) := by
  -- a digest that leaves the channel was in it
  have hnext : ∀ {d q}, n.sink.next = some (d, q) → d ∈ F ∧ ∀ f ∈ q.items, f ∈ F := by
    intro d q hq
    have hitems := (Fifo.next_eq_some hq).1
    exact ⟨h.sink d (by rw [hitems]; exact List.mem_cons_self),
      fun f hf => h.sink f (by rw [hitems]; exact List.mem_cons_of_mem d hf)⟩
  cases moves_step (B := createEnginePayloadBuilder A) n e with
  | quiet _ ht hsink hf hlog =>
    exact ⟨by rw [hsink]; exact h.sink, by rw [hf]; exact h.submitting,
      by rw [ht]; exact h.tracker, by rw [hlog]; exact h.log⟩
  | buildFcu _ _ ht hsink hf hlog =>
    refine ⟨by rw [hsink]; exact h.sink, by rw [hf]; exact h.submitting,
      by rw [ht]; exact h.tracker, finalized_log h hlog fun x hx => ?_⟩
    -- a build passes on what the tracker holds
    cases hx
    exact h.tracker
  | forwarded ha hq ht hsink hf hlog =>
    refine ⟨?_, by rw [hf]; exact h.submitting, by rw [ht]; exact h.tracker,
      finalized_log h hlog nofun⟩
    rw [hsink, (Fifo.trySend_eq_some hq).2.1]
    intro f hmem
    rcases List.mem_append.mp hmem with hold | hnew
    · exact h.sink f hold
    · rw [List.mem_singleton.mp hnew]
      exact hF _ ha
  | dropped _ _ ht hsink hf hlog =>
    exact ⟨by rw [hsink]; exact h.sink, by rw [hf]; exact h.submitting,
      by rw [ht]; exact h.tracker, finalized_log h hlog nofun⟩
  | poisoned _ hq _ ht hsink hf hlog =>
    exact ⟨by rw [hsink]; exact (hnext hq).2, by rw [hf]; exact nofun,
      by rw [ht]; exact h.tracker, by rw [hlog]; exact h.log⟩
  | notFound _ hq _ ht hsink hf hlog =>
    exact ⟨by rw [hsink]; exact (hnext hq).2, by rw [hf]; exact nofun,
      by rw [ht]; exact h.tracker, finalized_log h hlog nofun⟩
  | submitted _ hq hi ht hsink hf hlog =>
    obtain ⟨hd, hrest⟩ := hnext hq
    obtain ⟨hdr, -, hhash, ⟨-, hih, -⟩, -⟩ := hs.records _ _ hi
    have hinfo := hih.trans hhash
    refine ⟨by rw [hsink]; exact hrest, ?_, by rw [ht]; exact h.tracker,
      finalized_log h hlog fun x hx => ?_⟩
    · rw [hf]
      intro f hash number hm
      cases hm
      exact ⟨hd, hinfo⟩
    · cases hx
      exact ⟨_, hd, hinfo⟩
  | finalized hm _ ht hsink hf hlog =>
    obtain ⟨hd, hhash⟩ := h.submitting _ _ _ hm
    exact ⟨by rw [hsink]; exact h.sink, by rw [hf]; exact nofun,
      by rw [ht]; exact ⟨_, hd, hhash⟩, finalized_log h hlog nofun⟩
  | failed hm _ ht hsink hf hlog =>
    exact ⟨by rw [hsink]; exact h.sink, by rw [hf]; exact nofun,
      by rw [ht]; exact h.tracker, finalized_log h hlog nofun⟩

theorem mem_finalizedHashes (h : Final g F n) {x : B256} (hx : x ∈ n.finalizedHashes) :
    ∃ f ∈ F, x = g.hashOf f := by
  rcases List.mem_cons.mp hx with rfl | hx
  · exact h.tracker
  · obtain ⟨o, ho, hox⟩ := List.mem_filterMap.mp hx
    exact h.log o ho x hox

/-! ## The cluster -/

variable {ι : Type} [DecidableEq ι] {cfg : ι → Config A}
  {es : List (ι × Option (Node.Event (Reth A)))}

theorem final_run (hA : A.CollisionFree) (hz : A.NonZero) (hr : A.RoundTrips)
    (hcfg : ∀ i, (cfg i).genesis = g)
    (hreth : ∀ ie ∈ es, ∀ e, ie.2 = some e → HonestReth e) (hF : Digest.EMPTY ∈ F)
    (hrep : ∀ f ∈ clusterReported es, f ∈ F) (i : ι) :
    Final g F ((run (hosts A).netStep (clusterStart cfg) es).party i).2 := by
  have hD : ∀ ie ∈ es, ∀ e, ie.2 = some e →
      HonestReth e ∧ ∀ d, e.finalized = some d → d ∈ F := by
    refine fun ie hie e he => ⟨hreth ie hie e he, fun d hd => hrep d ?_⟩
    refine List.mem_filterMap.mpr ⟨ie, hie, ?_⟩
    rw [he]
    exact hd
  have hinv := Machine.restarting_invariant (m := clusterMachine A)
    (K := fun c : Config A => c.genesis = g)
    (I := fun _ n => Sound g n ∧ Final g F n) (J := Packet.Valid g)
    (C := fun _ _ e => HonestReth e ∧ ∀ d, e.finalized = some d → d ∈ F)
    (fun _ hc => ⟨ClusterLemmas.sound_start hc, final_start hc hF⟩)
    (fun _ _ _ _ hs hC hmsg =>
      ⟨ClusterLemmas.sound_step hA hz hr hs.1 hC.1 hmsg, final_step hs.1 hs.2 hC.2⟩)
    (fun _ _ _ _ hs hC _ hmem => ClusterLemmas.valid_sends hA hz hs.1 hC.1 hmem) hcfg
    (along_of_forall hD)
  exact (hinv.party i).2.2

/-- A chain of proposals is a chain of blocks. -/
theorem exec_of_proposed {wire : List Packet} (hwire : ∀ packet ∈ wire, packet.Valid g)
    {p d : Digest} (h : ReflTransGen (Proposed wire) p d) :
    ReflTransGen (ExecParent A) (g.hashOf p) (g.hashOf d) := by
  refine h.lift g.hashOf fun p d hpd => ?_
  obtain ⟨hp, hd, -, hhp, hhd, hparent, -⟩ := hwire _ hpd
  exact ⟨hd, hhd, hparent.trans hhp⟩

end ClusterFinalityLemmas

open ClusterFinalityLemmas

/-- In a cluster of any number of hosts on one genesis, in any run with any
restarts, deliveries and losses of reports in which the digests reported as
finalized are on one chain of proposals: the hashes that any two hosts hold or
have submitted as finalized, at any two points of the run, are on one chain of
blocks. -/
theorem execution_layers_agree {A : Alloy} {ι : Type} [DecidableEq ι] (hA : A.CollisionFree)
    (hz : A.NonZero) (hr : A.RoundTrips) (g : Genesis A) (cfg : ι → Config A)
    (hcfg : ∀ i, (cfg i).genesis = g) (es : List (ι × Option (Node.Event (Reth A))))
    (hreth : ∀ ie ∈ es, ∀ e, ie.2 = some e → HonestReth e) (hsafe : SimplexSafety cfg es)
    {es₁ es₂ : List (ι × Option (Node.Event (Reth A)))} (h₁ : es₁ <+: es) (h₂ : es₂ <+: es)
    {i j : ι} {x y : B256}
    (hx : x ∈ ((run (hosts A).netStep (clusterStart cfg) es₁).party i).2.finalizedHashes)
    (hy : y ∈ ((run (hosts A).netStep (clusterStart cfg) es₂).party j).2.finalizedHashes) :
    OnOneChain (ExecParent A) x y := by
  have hfinal : ∀ {es' : List (ι × Option (Node.Event (Reth A)))} (_ : es' <+: es) (i : ι),
      Final g {d | d = Digest.EMPTY ∨ d ∈ clusterReported es}
        ((run (hosts A).netStep (clusterStart cfg) es').party i).2 := by
    intro es' hpre i
    refine final_run hA hz hr hcfg (fun ie hie => hreth ie (hpre.subset hie)) (.inl rfl)
      (fun f hf => .inr ?_) i
    obtain ⟨ie, hie, hd⟩ := List.mem_filterMap.mp hf
    exact List.mem_filterMap.mpr ⟨ie, hpre.subset hie, hd⟩
  obtain ⟨f, hf, rfl⟩ := mem_finalizedHashes (hfinal h₁ i) hx
  obtain ⟨f', hf', rfl⟩ := mem_finalizedHashes (hfinal h₂ j) hy
  have hwire : ∀ packet ∈ (run (hosts A).netStep (clusterStart cfg) es).wire, packet.Valid g :=
    (ClusterLemmas.cluster_invariant hA hz hr hcfg hreth).wire
  have hchain : OnOneChain (Proposed (run (hosts A).netStep (clusterStart cfg) es).wire) f f' := by
    rcases hf with rfl | hf <;> rcases hf' with rfl | hf'
    · exact .inl .refl
    · exact .inl (hsafe.rooted f' hf')
    · exact .inr (hsafe.rooted f hf)
    · exact hsafe.chain f hf f' hf'
  rcases hchain with h | h
  · exact .inl (exec_of_proposed hwire h)
  · exact .inr (exec_of_proposed hwire h)

/-! ## Both hosts finalize a block -/

/-- Both hosts of `clusterRun` get the finalization of `one`. The proposer's tracker
moves to it, the other host still waits for the answer to its forkchoice update. -/
def finalityRun : List (Bool × Option (Node.Event (Reth sampleAlloy))) :=
  clusterRun ++ [(true, some (.report (.finalization SampleHeader.one.digest))),
    (true, some .finalizerRecv), (true, some (.finalizerAnswer (.ok ⟨.valid, none⟩))),
    (false, some (.report (.finalization SampleHeader.one.digest))), (false, some .finalizerRecv)]

theorem finalityRun_honestReth : ∀ ie ∈ finalityRun, ∀ e, ie.2 = some e → HonestReth e := by
  intro ie hie e he
  rcases List.mem_append.mp hie with hie | hie
  · exact clusterRun_honestReth ie hie e he
  · intro reth hr
    simp only [List.mem_cons, List.not_mem_nil, or_false] at hie
    rcases hie with rfl | rfl | rfl | rfl | rfl <;> cases he <;> cases hr

theorem finalityRun_safe : SimplexSafety (fun _ => sampleConfig) finalityRun := by
  have hreported : clusterReported finalityRun =
      [SampleHeader.one.digest, SampleHeader.one.digest] := by decide
  have hproposed : Packet.proposal Digest.EMPTY SampleHeader.one.digest ∈
      (run (hosts sampleAlloy).netStep (clusterStart fun _ => sampleConfig) finalityRun).wire := by
    decide
  have hone : ∀ f ∈ clusterReported finalityRun, f = SampleHeader.one.digest := by
    intro f hf
    rw [hreported] at hf
    simpa using hf
  constructor
  · intro f hf
    rw [hone f hf]
    exact .single hproposed
  · intro f hf f' hf'
    rw [hone f hf, hone f' hf']
    exact .inl .refl

theorem hosts_finalize_on_one_chain :
    OnOneChain (ExecParent sampleAlloy) SampleHeader.one.hash SampleHeader.genesis.hash :=
  execution_layers_agree sampleAlloy_collisionFree sampleAlloy_nonZero sampleAlloy_roundTrips
    sampleConfig.genesis (fun _ : Bool => sampleConfig) (fun _ => rfl) finalityRun
    finalityRun_honestReth finalityRun_safe (List.prefix_refl _) ⟨_, List.take_append_drop 3 _⟩
    (i := true) (j := false) (by decide) (by decide)

end Allegro
