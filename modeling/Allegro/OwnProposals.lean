import Allegro.ParentChain
import Allegro.Anchor

/-!
# What a production node proposes

`handle_propose` replaces a parent that it does not know by the zero hash. With
reth as the builder this is as good as a check: a forkchoice update to a head
that is not a block starts no payload job. So a production node answers a
`Propose` only with a child of the block that it has recorded for the parent,
and lets one on an unknown parent pass without a trace in its stores. This holds
against any peers and any consensus engine.

Results:
1. `proposalExtends_step`: one step, in a state that waits on a current request.
2. `proposals_extend_recorded_parents`: the same for whole runs.
-/

namespace Allegro

open Run Node

section Definitions

variable (A : Alloy)

/-- If this step answers a `Propose` with a digest, it is that of a child of the
block recorded for the parent. -/
def ProposalExtends (n : Node) (e : Node.Event (Reth A)) : Prop :=
  ∀ msg d, (n.prodStep A e).answers = n.answers ++ [.proposed msg (some d)] →
    ∃ p h, n.info msg.parent.2 = some p ∧ A.hashSlow h = d.get ∧ ExtendsRecord A h p

/-- If this step ends the build for a `Propose` on a parent that is not recorded,
it leaves the `Propose` unanswered and the stores as they are. -/
def UnknownDropped (n : Node) (e : Node.Event (Reth A)) : Prop :=
  ∀ msg req reth, n.stage = .building msg req → n.anchor.isSome → e = .built reth →
    n.info msg.parent.2 = none →
    (n.prodStep A e).answers = n.answers ++ [.proposed msg none] ∧
      Actor.SameStores (n.prodStep A e).toActor n.toActor

end Definitions

namespace OwnProposalsLemmas

variable {A : Alloy} {n : Node} {e : Node.Event (Reth A)}

/-- An answer that a step adds is a response of the engine side. -/
theorem responds_of_answers {answer : Answer}
    (h : (n.prodStep A e).answers = n.answers ++ [answer]) :
    ∃ ae, Drives (createEnginePayloadBuilder A) n e ae ∧
      (n.prodStep A e).toApp = n.toApp.step ae ∧ App.Responds n.toApp ae answer := by
  have hne : n.answers ≠ n.answers ++ [answer] := by simp
  rcases toApp_step (B := createEnginePayloadBuilder A) n e with hs | ⟨ae, hae, hs⟩
  · rw [hs] at h
    exact absurd h hne
  · rw [hs] at h
    rcases App.answers_step n.toApp ae with hsame | ⟨answer', hr, hnew⟩
    · rw [hsame] at h
      exact absurd h hne
    · obtain rfl : answer' = answer := by
        rw [hnew] at h
        simpa using h
      exact ⟨ae, hae, hs, hr⟩

/-- A step that answers with a digest ends a build that has succeeded. -/
theorem built_of_answers {msg : Propose} {d : Digest}
    (h : (n.prodStep A e).answers = n.answers ++ [.proposed msg (some d)]) :
    ∃ reth req finalized payload, e = .built reth ∧ n.stage = .building msg req ∧
      buildClosure A reth finalized req = .ok payload ∧ d = ⟨payload.blockHash⟩ := by
  obtain ⟨ae, hae, -, hr⟩ := responds_of_answers h
  cases hr with
  | proposed hstage =>
    obtain ⟨reth, finalized, rfl, -, hb⟩ := drives_built hae hstage
    exact ⟨reth, _, finalized, _, rfl, hstage, hb, rfl⟩

/-- Reth builds nothing on a parent that is not recorded. -/
theorem recorded_of_built (hreq : n.RequestCurrent) {msg : Propose} {req : BuildPayloadRequest}
    {reth : Reth A} {finalized : Finalized} {payload : BuiltPayload} (hreth : reth.BuildsOnHead)
    (hstage : n.stage = .building msg req)
    (hb : buildClosure A reth finalized req = .ok payload) : (n.info msg.parent.2).isSome := by
  obtain ⟨block, hjob, -⟩ := buildClosure_ok hb
  obtain ⟨nowMillis, rfl⟩ := hreq msg req hstage
  rw [Option.isSome_iff_ne_none]
  intro hnone
  have hlookup : n.blockInfo.value.lookup msg.parent.2 = none := hnone
  refine absurd ?_ (hreth _ _ _ hjob).1
  simp only [buildForkchoice, Actor.buildRequest, Actor.parentOf, hlookup]
  rfl

theorem proposalExtends_step (hA : A.CollisionFree) (hn : Backed A n) (hreq : n.RequestCurrent)
    (hreth : ∀ reth, e.env = some reth → reth.BuildsOnHead) : ProposalExtends A n e := by
  intro msg d hans
  obtain ⟨reth, req, finalized, payload, rfl, hstage, hb, rfl⟩ := built_of_answers hans
  obtain ⟨p, hp⟩ := Option.isSome_iff_exists.mp
    (recorded_of_built hreq (hreth reth rfl) hstage hb)
  obtain ⟨block, hjob, rfl⟩ := buildClosure_ok hb
  obtain ⟨-, hparent, parent, hhash, hnum⟩ := hreth reth rfl _ _ _ hjob
  obtain ⟨nowMillis, rfl⟩ := hreq _ _ hstage
  have hhead : A.parentHash block.header = p.hash := by
    rw [hparent]
    exact (Actor.buildRequest_known nowMillis hp).1
  exact ⟨p, block.header, hp, rfl, ParentChainLemmas.extendsRecord_of_parentHash hA hn hp hhead
    (hhash.trans hparent.symm) hnum⟩

theorem unknownDropped_step (hreq : n.RequestCurrent)
    (hreth : ∀ reth, e.env = some reth → reth.BuildsOnHead) : UnknownDropped A n e := by
  rintro msg req reth hstage hanchor rfl hnone
  obtain ⟨finalized, hfin⟩ := Option.isSome_iff_exists.mp hanchor
  have hstep : (n.prodStep A (.built reth)).toApp =
      n.toApp.finishPropose msg req (buildClosure A reth finalized req) := by
    simp only [step, appStep, appEvent, hstage, hfin, App.step]
    rfl
  cases hb : buildClosure A reth finalized req with
  | ok payload =>
    have hsome := recorded_of_built hreq (hreth reth rfl) hstage hb
    rw [hnone] at hsome
    cases hsome
  | error reason =>
    rw [hstep, hb]
    exact ⟨rfl, Actor.count_sameStores n.toActor _⟩

end OwnProposalsLemmas

open OwnProposalsLemmas

/-- In every run of a production node over a reth that builds on its head, with any
messages from peers and from the engine and any answers to verifications: every
digest that the node proposes is that of a child of the block it has recorded for
the parent, and a `Propose` on a parent without a record is left unanswered with
the stores as they were. -/
theorem proposals_extend_recorded_parents {A : Alloy} (hA : A.CollisionFree) (c : Config A)
    (es : List (Node.Event (Reth A)))
    (hreth : ∀ e ∈ es, ∀ reth, e.env = some reth → reth.BuildsOnHead) :
    Along (prodStep A) (fun n e => ProposalExtends A n e ∧ UnknownDropped A n e)
      (Node.start c) es := by
  refine along_of_splits fun es₁ e es₂ hes => ?_
  obtain ⟨hbacked, hreq⟩ := ParentChainLemmas.inv_run c es₁
  have he : ∀ reth, e.env = some reth → reth.BuildsOnHead := hreth e (by rw [hes]; simp)
  exact ⟨proposalExtends_step hA hbacked hreq he, unknownDropped_step hreq he⟩

/-- A `Propose` on genesis is answered, one on a digest that nobody knows is not. -/
def knownAndUnknownRun : List (Node.Event (Reth sampleAlloy)) :=
  [.enqueue (.propose (samplePropose .EMPTY 1)), .recv 11000, .buildFcu,
    .built (sampleReth .one), .enqueue (.propose (samplePropose ⟨B256.repeatByte 7⟩ 2)),
    .recv 12000, .buildFcu, .built (sampleReth .two)]

theorem known_parent_extended_unknown_dropped :
    (run (prodStep sampleAlloy) (Node.start sampleConfig) knownAndUnknownRun).answers =
        [.proposed (samplePropose .EMPTY 1) (some SampleHeader.one.digest),
          .proposed (samplePropose ⟨B256.repeatByte 7⟩ 2) none] ∧
      Along (prodStep sampleAlloy)
        (fun n e => ProposalExtends sampleAlloy n e ∧ UnknownDropped sampleAlloy n e)
        (Node.start sampleConfig) knownAndUnknownRun := by
  refine ⟨by decide, proposals_extend_recorded_parents sampleAlloy_collisionFree sampleConfig
    knownAndUnknownRun ?_⟩
  intro e he reth hr
  simp only [knownAndUnknownRun, List.mem_cons, List.not_mem_nil, or_false] at he
  rcases he with rfl | rfl | rfl | rfl | rfl | rfl | rfl | rfl <;> cases hr
  · exact sampleReth_buildsOnHead .one
  · exact sampleReth_buildsOnHead .two

end Allegro
