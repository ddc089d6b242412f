import Allegro.ClusterFinality
import Allegro.Lib.Accounting
import Allegro.Lib.SharedTree

/-!
# A cluster grows one tree

To consensus a node is a box that answers requests. What the answers of all the boxes
amount to is a tree of blocks: an answered `Propose` hangs a block on one that the node
has, an answer `true` takes over a block that some node has proposed, and an answer VALID
to the finalizer makes a block of the node final.

Nothing else goes on in a cluster of honest hosts. Its steps, seen through the answers that
are given and that are got, are permitted steps of `SharedTree`, and the records and the
trackers of the nodes are the books and the final blocks of the tree. So what holds of
every run of the tree holds of the cluster.

Results:
1. `treeStep`: what one step of a node can do to the tree.
2. `cluster_refines_tree`: the cluster refines the tree.
3. `records_rooted_in_proposals`: every record goes back to genesis by proposals that hosts
   of the cluster have made, and what a tracker holds is on record.
-/

namespace Allegro

open Run Node Relation

section Definitions

variable {A : Alloy} {ι : Type}

/-- What a response means for the tree. A `Propose` that is dropped and a `false` leave it
as it is. -/
def Answer.action (i : ι) : Answer → Option (SharedTree.Action ι Digest)
  | .proposed msg (some d) => some (.propose i msg.parent.2 d)
  | .verified msg true => some (.take i msg.parent.2 msg.payload)
  | _ => none

/-- What host `i` does to the tree at the step `e` from `n` to `n'`: by what it answers, and
by the finalization whose forkchoice update is answered VALID. -/
def grown (i : ι) (n : Node) (e : Node.Event (Reth A)) (n' : Node) :
    List (SharedTree.Action ι Digest) :=
  (n'.answers.drop n.answers.length).filterMap (Answer.action i) ++
    (n.confirms e).map fun f => .finalize i f.digest

variable (A) in
/-- What a step of the cluster does to the tree. -/
def treeActions [DecidableEq ι] (s : Net ι (Config A × Node) Packet)
    (ie : ι × Option (Node.Event (Reth A))) : List (SharedTree.Action ι Digest) :=
  match ie.2 with
  | none => [.lose ie.1]
  | some e => grown ie.1 (s.party ie.1).2 e (((hosts A).netStep s ie).party ie.1).2

/-- The block of `d` is a child of the block of `p`. -/
def ChildOf (g : Genesis A) (p d : Digest) : Prop :=
  ∃ hp h, A.hashSlow hp = g.hashOf p ∧ A.hashSlow h = g.hashOf d ∧
    A.parentHash h = A.hashSlow hp ∧ (A.number h).toNat = (A.number hp).toNat + 1

/-- The proposals on the wire are the links of the tree, the digests that a node has on
record are its book, and its tracker holds the final block. -/
structure Represents (g : Genesis A) (s : Net ι (Config A × Node) Packet)
    (t : SharedTree ι Digest) : Prop where
  links : ∀ p d, t.links p d ↔ Proposed s.wire p d
  book : ∀ i d, d ∈ t.book i ↔ ((s.party i).2.info d).isSome
  final : ∀ i, (s.party i).2.tracker.finalized.1 = g.hashOf (t.final i)

/-- A node whose book is `own` and whose final block is `last`, in a tree with the links
`links`: it is asked to verify links only, and submits only what is in its book. -/
structure Node.InTree (g : Genesis A) (links : Digest → Digest → Prop) (own : Set Digest)
    (last : Digest) (n : Node) : Prop where
  book : ∀ d, d ∈ own ↔ (n.info d).isSome
  final : n.tracker.finalized.1 = g.hashOf last
  asked : ∀ msg, .verify msg ∈ n.outstanding → links msg.parent.2 msg.payload
  submitting : ∀ d hash number, n.finalizer = .submitting d hash number →
    d ∈ own ∧ hash = g.hashOf d

/-- The tree that a cluster has grown, and its nodes within it. -/
structure ClusterTree (g : Genesis A) (s : Net ι (Config A × Node) Packet)
    (t : SharedTree ι Digest) : Prop where
  links : ∀ p d, t.links p d ↔ Proposed s.wire p d
  node : ∀ i, (s.party i).2.InTree g t.links (t.book i) (t.final i)

/-- What a step of a node does to the tree, and what it comes to. -/
inductive TreeStep (g : Genesis A) (i : ι) (n : Node) (e : Node.Event (Reth A)) :
    Option (SharedTree.Action ι Digest) → Prop
  | quiet :
      (∀ d, ((n.prodStep A e).info d).isSome ↔ (n.info d).isSome) →
      (n.prodStep A e).tracker = n.tracker →
      (∀ p d, .proposal p d ∉ (clusterMachine A).sends n e) → TreeStep g i n e none
  | proposed {p d : Digest} :
      (n.info p).isSome → Links g p d →
      (∀ d', ((n.prodStep A e).info d').isSome ↔ d' = d ∨ (n.info d').isSome) →
      (n.prodStep A e).tracker = n.tracker →
      (∀ p' d', .proposal p' d' ∈ (clusterMachine A).sends n e ↔ p' = p ∧ d' = d) →
      TreeStep g i n e (some (.propose i p d))
  | taken {msg : Verify} :
      .verify msg ∈ n.outstanding →
      (∀ d', ((n.prodStep A e).info d').isSome ↔ d' = msg.payload ∨ (n.info d').isSome) →
      (n.prodStep A e).tracker = n.tracker →
      (∀ p d, .proposal p d ∉ (clusterMachine A).sends n e) →
      TreeStep g i n e (some (.take i msg.parent.2 msg.payload))
  | finalized {d : Digest} {hash : B256} {number : UInt64} :
      n.finalizer = .submitting d hash number →
      (∀ d', ((n.prodStep A e).info d').isSome ↔ (n.info d').isSome) →
      (n.prodStep A e).tracker = ⟨(hash, number)⟩ →
      (∀ p d, .proposal p d ∉ (clusterMachine A).sends n e) →
      TreeStep g i n e (some (.finalize i d))

end Definitions

namespace TreeRefinementLemmas

variable {A : Alloy} {g : Genesis A} {ι : Type} {i : ι} {n : Node} {e : Node.Event (Reth A)}

/-! ## One node -/

theorem grown_of_answer {n' : Node} {answer : Answer} (hans : n'.answers = n.answers ++ [answer])
    (hnone : n.confirms e = []) : grown i n e n' = (answer.action i).toList := by
  rw [grown, hans, List.drop_left, hnone, List.map_nil, List.append_nil]
  cases h : answer.action i with
  | none => rw [List.filterMap_cons_none h]; rfl
  | some a => rw [List.filterMap_cons_some h]; rfl

/-- The proposals that a step sends are those of the blocks it has built. -/
theorem proposal_mem_sends {p d : Digest} :
    .proposal p d ∈ (clusterMachine A).sends n e ↔
      ∃ msg req reth payload, .built msg req reth payload ∈ recordings A n e ∧
        p = msg.parent.2 ∧ d = ⟨payload.blockHash⟩ := by
  constructor
  · intro h
    rcases List.mem_append.mp h with hblock | hproposal
    · obtain ⟨_, -, heq⟩ := List.mem_map.mp hblock
      cases heq
    · obtain ⟨⟨msg, d'⟩, hmem, heq⟩ := List.mem_map.mp hproposal
      obtain ⟨r, hr, hprop⟩ := List.mem_filterMap.mp hmem
      cases r with
      | verified msg => cases hprop
      | built msg req reth payload =>
        cases hprop
        cases heq
        exact ⟨msg, req, reth, payload, hr, rfl, rfl⟩
  · rintro ⟨msg, req, reth, payload, hr, rfl, rfl⟩
    refine List.mem_append_right _ (List.mem_map.mpr ⟨(msg, ⟨payload.blockHash⟩), ?_, rfl⟩)
    exact List.mem_filterMap.mpr ⟨_, hr, rfl⟩

theorem proposal_notMem_sends (hne : ∀ reth, e ≠ .built reth) (p d : Digest) :
    .proposal p d ∉ (clusterMachine A).sends n e := by
  intro h
  obtain ⟨msg, req, reth, payload, hr, -, -⟩ := proposal_mem_sends.mp h
  obtain ⟨_, rfl, -⟩ := UniquenessLemmas.built_mem_recordings hr
  exact hne reth rfl

/-- A step that records a block has it on record afterwards, beside what it had. -/
theorem info_isSome_iff (hl : n.Healthy) {d : Digest} {info : BlockInfo}
    (hrec : Records (createEnginePayloadBuilder A) n e d info)
    (honly : ∀ d' info', Records (createEnginePayloadBuilder A) n e d' info' → d' = d)
    (d' : Digest) : ((n.prodStep A e).info d').isSome ↔ d' = d ∨ (n.info d').isSome := by
  constructor
  · intro h
    obtain ⟨info', hinfo⟩ := Option.isSome_iff_exists.mp h
    rcases info_step_cases hinfo with hold | hrec'
    · exact .inr (Option.isSome_iff_exists.mpr ⟨info', hold⟩)
    · exact .inl (honly d' info' hrec')
  · rintro (rfl | hold)
    · rw [info_step_of_records hl.blockInfo hrec]
      rfl
    · exact info_step_isSome e hold

/-- A step that records a block answers with it. -/
theorem treeStep_of_records (hA : A.CollisionFree) (hz : A.NonZero) (hs : Sound g n)
    (hreth : HonestReth e) {d : Digest} {info : BlockInfo}
    (hrec : Records (createEnginePayloadBuilder A) n e d info) :
    ∃ a, TreeStep g i n e a ∧ grown i n e (n.prodStep A e) = a.toList := by
  cases hrec with
  | @proposed msg req finalized reth payload hstage hanchor hb =>
    have hb : buildClosure A reth finalized req = .ok payload := hb
    have happ : (n.prodStep A (.built reth)).toApp =
        n.toApp.finishPropose msg req (.ok payload) := by
      simp only [step, appStep, appEvent, hstage, hanchor, App.step, ← hb]
      rfl
    have hans : (n.prodStep A (.built reth)).answers =
        n.answers ++ [.proposed msg (some ⟨payload.blockHash⟩)] := by
      rw [happ]
      rfl
    have htracker := (appStep_frame (B := createEnginePayloadBuilder A) n (.built reth)).1
    have hone : recordings A n (.built reth) = [.built msg req reth payload] := by
      simp only [recordings, hstage, hanchor, hb]
    refine ⟨some (.propose i msg.parent.2 ⟨payload.blockHash⟩), .proposed ?_ ?_ ?_ htracker ?_,
      grown_of_answer hans rfl⟩
    · exact OwnProposalsLemmas.recorded_of_built hs.request (hreth reth rfl).1 hstage hb
    · exact ClusterLemmas.links_of_built hA hz hs hstage (hreth reth rfl).1 hb
    · refine info_isSome_iff hs.healthy (.proposed hstage hanchor hb) fun d' info' hrec' => ?_
      cases hrec' with
      | proposed hstage' hanchor' hb' =>
        cases hstage.symm.trans hstage'
        cases hanchor.symm.trans hanchor'
        cases hb.symm.trans hb'
        rfl
    · intro p' d'
      rw [proposal_mem_sends, hone]
      constructor
      · rintro ⟨msg', req', reth', payload', hmem, rfl, rfl⟩
        cases List.mem_singleton.mp hmem
        exact ⟨rfl, rfl⟩
      · rintro ⟨rfl, rfl⟩
        exact ⟨msg, req, reth, payload, List.mem_singleton_self _, rfl, rfl⟩
  | @verified msg bytes ph reth m hstage hv hm =>
    have hv : validateClosure A reth ⟨bytes, ph⟩ = .ok (.valid m) := hv
    have happ : (n.prodStep A (.validated reth)).toApp =
        n.toApp.finishVerify msg (.ok (.valid m)) := by
      simp only [step, appStep, appEvent, hstage, App.step, ← hv]
      rfl
    have hans : (n.prodStep A (.validated reth)).answers = n.answers ++ [.verified msg true] := by
      rw [happ]
      simp only [App.finishVerify, Actor.verifyRecord_accepts n.toActor msg hm, App.respond]
    have htracker := (appStep_frame (B := createEnginePayloadBuilder A) n (.validated reth)).1
    refine ⟨some (.take i msg.parent.2 msg.payload), .taken ?_ ?_ htracker
      (proposal_notMem_sends (by rintro _ ⟨⟩)), grown_of_answer hans rfl⟩
    · rw [App.outstanding, hstage]
      exact List.mem_cons_self
    · refine info_isSome_iff hs.healthy (.verified hstage hv hm) fun d' info' hrec' => ?_
      cases hrec' with
      | verified hstage' _ _ =>
        cases hstage.symm.trans hstage'
        rfl

/-- A step that records nothing gives no answer that means anything to the tree. -/
theorem answers_of_no_record
    (hnone : ∀ d info, ¬ Records (createEnginePayloadBuilder A) n e d info) :
    ((n.prodStep A e).answers.drop n.answers.length).filterMap (Answer.action i) = [] := by
  rcases toApp_step (B := createEnginePayloadBuilder A) n e with hs | ⟨ae, hae, hs⟩
  · rw [hs, List.drop_length, List.filterMap_nil]
  · rw [hs]
    rcases App.answers_step n.toApp ae with hsame | ⟨answer, hr, hnew⟩
    · rw [hsame, List.drop_length, List.filterMap_nil]
    · rw [hnew, List.drop_left]
      cases hr with
      | proposed hstage =>
        obtain ⟨reth, finalized, rfl, hanchor, hb⟩ := drives_built hae hstage
        exact absurd (.proposed hstage hanchor hb) (hnone _ _)
      | accepted hstage hm =>
        obtain ⟨reth, rfl, hv⟩ := drives_validated hae hstage
        exact absurd (.verified hstage hv hm) (hnone _ _)
      | dropped | rejected | failed | refused => rfl

theorem treeStep_of_no_record
    (hnone : ∀ d info, ¬ Records (createEnginePayloadBuilder A) n e d info) :
    ∃ a, TreeStep g i n e a ∧ grown i n e (n.prodStep A e) = a.toList := by
  have hinfo : ∀ d, ((n.prodStep A e).info d).isSome ↔ (n.info d).isSome := by
    refine fun d => ⟨fun h => ?_, info_step_isSome e⟩
    obtain ⟨info, hi⟩ := Option.isSome_iff_exists.mp h
    rcases info_step_cases hi with hold | hrec
    · exact Option.isSome_iff_exists.mpr ⟨info, hold⟩
    · exact absurd hrec (hnone d info)
  have hsends : ∀ p d, .proposal p d ∉ (clusterMachine A).sends n e := by
    intro p d h
    obtain ⟨msg, req, reth, payload, hr, -, -⟩ := proposal_mem_sends.mp h
    obtain ⟨info, hrec, -⟩ := UniquenessLemmas.records_of_mem hr
    exact hnone _ _ hrec
  rcases confirms_step (B := createEnginePayloadBuilder A) n e with ⟨hquiet, ht⟩ | ⟨f, hone, ht⟩
  · refine ⟨none, .quiet hinfo ht hsends, ?_⟩
    rw [grown, answers_of_no_record hnone, hquiet]
    rfl
  · obtain ⟨fcu, -, -, hsub⟩ := mem_confirms.mp (hone ▸ List.mem_singleton_self f)
    refine ⟨some (.finalize i f.digest),
      .finalized hsub hinfo (congrArg ForkchoiceTracker.mk ht) hsends, ?_⟩
    rw [grown, answers_of_no_record hnone, hone]
    rfl

/-- An event that brings a message is no answer to the finalizer. -/
theorem confirms_of_receives (h : ((clusterMachine A).receives e).isSome) : n.confirms e = [] := by
  cases e with
  | finalizerAnswer result => cases h
  | _ => rfl

/-- What a step of a sound node does to the tree is what it answers and confirms. -/
theorem treeStep (hA : A.CollisionFree) (hz : A.NonZero) (hs : Sound g n) (hreth : HonestReth e) :
    ∃ a, TreeStep g i n e a ∧ grown i n e (n.prodStep A e) = a.toList := by
  by_cases hrec : ∃ d info, Records (createEnginePayloadBuilder A) n e d info
  · obtain ⟨d, info, hrec⟩ := hrec
    exact treeStep_of_records hA hz hs hreth hrec
  · exact treeStep_of_no_record fun d info h => hrec ⟨d, info, h⟩

theorem inTree_start {c : Config A} (hc : c.genesis = g) (links : Digest → Digest → Prop) :
    (Node.start c).InTree g links {Digest.EMPTY} Digest.EMPTY where
  book := by
    refine fun d => ⟨?_, fun h => ?_⟩
    · rintro rfl
      rw [(ClusterLemmas.sound_start hc).genesis]
      rfl
    · obtain ⟨info, hi⟩ := Option.isSome_iff_exists.mp h
      exact (App.info_new hi).1
  final := by
    rw [ClusterLemmas.hashOf_empty, ← hc]
    rfl
  asked := fun _ h => absurd h List.not_mem_nil
  submitting := by
    rintro d hash number ⟨⟩

theorem inTree_mono {links links' : Digest → Digest → Prop} {own : Set Digest} {last : Digest}
    (hmono : ∀ p d, links p d → links' p d) (h : n.InTree g links own last) :
    n.InTree g links' own last :=
  ⟨h.book, h.final, fun msg hmem => hmono _ _ (h.asked msg hmem), h.submitting⟩

theorem inTree_step {links links' : Digest → Digest → Prop} {own own' : Set Digest}
    {last last' : Digest} (hs : Sound g n) (h : n.InTree g links own last)
    (hmono : ∀ p d, links p d → links' p d)
    (hmsg : ∀ msg, e = .enqueue (.verify msg) → links' msg.parent.2 msg.payload)
    (hbook : ∀ d, d ∈ own' ↔ ((n.prodStep A e).info d).isSome)
    (hfinal : (n.prodStep A e).tracker.finalized.1 = g.hashOf last') :
    (n.prodStep A e).InTree g links' own' last' where
  book := hbook
  final := hfinal
  asked := by
    intro msg hmem
    rcases ServingLemmas.mem_outstanding_step hmem with hold | hnew
    · exact hmono _ _ (h.asked msg hold)
    · exact hmsg msg hnew
  submitting := by
    intro d hash number hsub
    have hkept : (n.info d).isSome → d ∈ own' := fun hd => (hbook d).mpr (info_step_isSome e hd)
    have hold : n.finalizer = .submitting d hash number → d ∈ own' ∧ hash = g.hashOf d := by
      intro hsub
      obtain ⟨hd, hhash⟩ := h.submitting d hash number hsub
      exact ⟨hkept ((h.book d).mp hd), hhash⟩
    cases moves_step (B := createEnginePayloadBuilder A) n e with
    | quiet _ _ _ hf _ | buildFcu _ _ _ _ hf _ | forwarded _ _ _ _ hf _ | dropped _ _ _ _ hf _ =>
      exact hold (hf.symm.trans hsub)
    | poisoned _ _ _ _ _ hf _ | notFound _ _ _ _ _ hf _ | finalized _ _ _ _ hf _
    | failed _ _ _ _ hf _ =>
      cases hf.symm.trans hsub
    | submitted _ _ hi _ _ hf _ =>
      cases hf.symm.trans hsub
      obtain ⟨hdr, -, hhash, ⟨-, hih, -⟩, -⟩ := hs.records _ _ hi
      exact ⟨hkept (Option.isSome_iff_exists.mpr ⟨_, hi⟩), hih.trans hhash⟩

/-! ## The cluster -/

variable [DecidableEq ι] {s : Net ι (Config A × Node) Packet} {t : SharedTree ι Digest}

/-- The others see nothing of the step of a host but its proposals. -/
theorem clusterTree_fire (h : ClusterTree g s t) {t' : SharedTree ι Digest}
    {e : Option (Node.Event (Reth A))}
    (hlinks : ∀ p d, t'.links p d ↔
      t.links p d ∨ .proposal p d ∈ (hosts A).sends (s.party i) e)
    (hothers : ∀ j, j ≠ i → t'.book j = t.book j ∧ t'.final j = t.final j)
    (hnode : ((hosts A).step (s.party i) e).2.InTree g t'.links (t'.book i) (t'.final i)) :
    ClusterTree g ((hosts A).fire s i e) t' where
  links := by
    intro p d
    rw [hlinks, h.links, Proposed, Proposed, Machine.fire, List.mem_append]
  node := by
    intro j
    by_cases hj : j = i
    · subst hj
      simp only [Machine.fire, Function.update_self]
      exact hnode
    · obtain ⟨hbook, hfinal⟩ := hothers j hj
      simp only [Machine.fire, Function.update_of_ne hj]
      rw [hbook, hfinal]
      exact inTree_mono (fun p d hpd => (hlinks p d).mpr (.inl hpd)) (h.node j)

theorem childOf_of_links {p d : Digest} (h : Links g p d) : ChildOf g p d := by
  obtain ⟨hp, hd, -, hhp, hhd, hparent, hnumber⟩ := h
  exact ⟨hp, hd, hhp, hhd, hparent, hnumber⟩

/-- A restart is the loss of a book. -/
theorem clusterTree_restart (h : ClusterTree g s t) (hc : (s.party i).1.genesis = g) :
    ClusterTree g ((hosts A).fire s i none) (t.next Digest.EMPTY (.lose i)) := by
  refine clusterTree_fire h (fun p d => ?_) (fun j hj => ?_) ?_
  · exact ⟨.inl, fun h => h.elim id fun h => absurd h List.not_mem_nil⟩
  · exact ⟨Function.update_of_ne hj _ _, Function.update_of_ne hj _ _⟩
  · simp only [SharedTree.next, Function.update_self]
    exact inTree_start hc _

/-- A step of a node is the step of the tree that it means. -/
theorem clusterTree_up (h : ClusterTree g s t) (hs : Sound g (s.party i).2)
    {a : Option (SharedTree.Action ι Digest)} (ha : TreeStep g i (s.party i).2 e a)
    (hwire : ∀ packet, (clusterMachine A).receives e = some packet → packet ∈ s.wire) :
    Along (SharedTree.next Digest.EMPTY) (SharedTree.Permits (ChildOf g)) t a.toList ∧
      ClusterTree g ((hosts A).fire s i (some e))
        (run (SharedTree.next Digest.EMPTY) t a.toList) := by
  have hmsg : ∀ msg, e = .enqueue (.verify msg) → t.links msg.parent.2 msg.payload := by
    rintro msg rfl
    exact (h.links _ _).mpr (hwire _ rfl)
  have hnode := h.node i
  cases ha with
  | quiet hinfo htracker hsends =>
    refine ⟨trivial, clusterTree_fire h (fun p d => ?_) (fun _ _ => ⟨rfl, rfl⟩) ?_⟩
    · exact ⟨.inl, fun h => h.elim id fun h => absurd h (hsends p d)⟩
    · refine inTree_step hs hnode (fun _ _ => id) hmsg (fun d => ?_) ?_
      · rw [hinfo]
        exact hnode.book d
      · rw [htracker]
        exact hnode.final
  | @proposed p d hp hlinks hinfo htracker hsends =>
    refine ⟨⟨⟨(hnode.book p).mpr hp, childOf_of_links hlinks⟩, trivial⟩,
      clusterTree_fire h (fun p' d' => ?_) (fun j hj => ⟨SharedTree.enter_of_ne hj, rfl⟩) ?_⟩
    · exact or_congr_right (hsends p' d').symm
    · refine inTree_step hs hnode (fun _ _ => .inl) (fun msg he => .inl (hmsg msg he))
        (fun d' => ?_) ?_
      · rw [hinfo, ← hnode.book]
        exact Iff.of_eq (congrArg (d' ∈ ·) SharedTree.enter_self)
      · rw [htracker]
        exact hnode.final
  | @taken msg hout hinfo htracker hsends =>
    refine ⟨⟨hnode.asked msg hout, trivial⟩,
      clusterTree_fire h (fun p d => ?_) (fun j hj => ⟨SharedTree.enter_of_ne hj, rfl⟩) ?_⟩
    · exact ⟨.inl, fun h => h.elim id fun h => absurd h (hsends p d)⟩
    · refine inTree_step hs hnode (fun _ _ => id) hmsg (fun d' => ?_) ?_
      · rw [hinfo, ← hnode.book]
        exact Iff.of_eq (congrArg (d' ∈ ·) SharedTree.enter_self)
      · rw [htracker]
        exact hnode.final
  | @finalized d hash number hsub hinfo htracker hsends =>
    obtain ⟨hd, hhash⟩ := hnode.submitting d hash number hsub
    refine ⟨⟨hd, trivial⟩, clusterTree_fire h (fun p d => ?_)
      (fun j hj => ⟨rfl, Function.update_of_ne hj _ _⟩) ?_⟩
    · exact ⟨.inl, fun h => h.elim id fun h => absurd h (hsends p d)⟩
    · refine inTree_step hs hnode (fun _ _ => id) hmsg (fun d' => ?_) ?_
      · rw [hinfo]
        exact hnode.book d'
      · have hlast : (t.next Digest.EMPTY (.finalize i d)).final i = d :=
          Function.update_self _ _ _
        rw [htracker]
        exact hhash.trans (congrArg g.hashOf hlast.symm)

theorem clusterTree_step (hA : A.CollisionFree) (hz : A.NonZero)
    {ie : ι × Option (Node.Event (Reth A))}
    (hinv : Machine.Inv (fun p : Config A × Node => p.1.genesis = g ∧ Sound g p.2)
      (Packet.Valid g) s)
    (hreth : ∀ e, ie.2 = some e → HonestReth e) (h : ClusterTree g s t) :
    Along (SharedTree.next Digest.EMPTY) (SharedTree.Permits (ChildOf g)) t (treeActions A s ie) ∧
      ClusterTree g ((hosts A).netStep s ie)
        (run (SharedTree.next Digest.EMPTY) t (treeActions A s ie)) := by
  obtain ⟨i, e⟩ := ie
  obtain ⟨hc, hs⟩ := hinv.party i
  cases e with
  | none => exact ⟨⟨trivial, trivial⟩, clusterTree_restart h hc⟩
  | some e =>
    rcases (hosts A).netStep_cases s (i, some e) with ⟨hfire, hwire⟩ | ⟨hsame, hmsg⟩
    · obtain ⟨a, ha, hgrown⟩ := treeStep (i := i) hA hz hs (hreth e rfl)
      have hacts : treeActions A s (i, some e) = a.toList := by
        show grown i (s.party i).2 e (((hosts A).netStep s (i, some e)).party i).2 = _
        rw [← hgrown, hfire]
        simp only [Machine.fire, Function.update_self]
        rfl
      rw [hacts, hfire]
      exact clusterTree_up h hs ha hwire
    · -- a message that nobody has sent is not delivered
      have hacts : treeActions A s (i, some e) = [] := by
        show grown i (s.party i).2 e (((hosts A).netStep s (i, some e)).party i).2 = _
        rw [hsame, grown, List.drop_length, confirms_of_receives hmsg]
        rfl
      rw [hacts, hsame]
      exact ⟨trivial, h⟩

theorem clusterTree_run (hA : A.CollisionFree) (hz : A.NonZero) (hr : A.RoundTrips)
    {cfg : ι → Config A} (hcfg : ∀ i, (cfg i).genesis = g)
    {es : List (ι × Option (Node.Event (Reth A)))}
    (hreth : ∀ ie ∈ es, ∀ e, ie.2 = some e → HonestReth e) :
    let acts := trace (hosts A).netStep (treeActions A) (clusterStart cfg) es
    Along (SharedTree.next Digest.EMPTY) (SharedTree.Permits (ChildOf g))
        (SharedTree.start Digest.EMPTY) acts ∧
      ClusterTree g (run (hosts A).netStep (clusterStart cfg) es)
        (run (SharedTree.next Digest.EMPTY) (SharedTree.start Digest.EMPTY) acts) := by
  refine trace_simulates (R := ClusterTree g)
    (C := fun s ie =>
      Machine.Inv (fun p : Config A × Node => p.1.genesis = g ∧ Sound g p.2) (Packet.Valid g) s ∧
        ∀ e, ie.2 = some e → HonestReth e)
    (fun s t ie h hC => clusterTree_step hA hz hC.1 hC.2 h) ?_ ?_
  · exact ⟨fun p d => ⟨fun h => h.elim, fun h => absurd h List.not_mem_nil⟩,
      fun i => inTree_start (hcfg i) _⟩
  · refine along_of_splits fun es₁ ie es₂ hes => ?_
    subst hes
    refine ⟨ClusterLemmas.cluster_invariant hA hz hr hcfg fun ie' hie => ?_, ?_⟩
    · exact hreth ie' (List.mem_append_left _ hie)
    · exact hreth ie (List.mem_append_right _ List.mem_cons_self)

end TreeRefinementLemmas

open TreeRefinementLemmas

section Results

variable {A : Alloy} {ι : Type} [DecidableEq ι]

/-- A cluster of any number of hosts on one genesis, with any order of their steps, any
restarts, losses and deliveries on both networks, refines the tree: what its hosts answer
and finalize in the course of a run is a permitted run of the tree, and at its end the
proposals on the wire, the records and the trackers are those of the tree. -/
theorem cluster_refines_tree (hA : A.CollisionFree) (hz : A.NonZero) (hr : A.RoundTrips)
    (g : Genesis A) (cfg : ι → Config A) (hcfg : ∀ i, (cfg i).genesis = g)
    (es : List (ι × Option (Node.Event (Reth A))))
    (hreth : ∀ ie ∈ es, ∀ e, ie.2 = some e → HonestReth e) :
    let acts := trace (hosts A).netStep (treeActions A) (clusterStart cfg) es
    Along (SharedTree.next Digest.EMPTY) (SharedTree.Permits (ChildOf g))
        (SharedTree.start Digest.EMPTY) acts ∧
      Represents g (run (hosts A).netStep (clusterStart cfg) es)
        (run (SharedTree.next Digest.EMPTY) (SharedTree.start Digest.EMPTY) acts) := by
  obtain ⟨hpermitted, htree⟩ := clusterTree_run hA hz hr hcfg hreth
  exact ⟨hpermitted, htree.links, fun i => (htree.node i).book, fun i => (htree.node i).final⟩

/-- In such a cluster, at every point of every run: every proposal that was made is that of a
child, and its parent goes back to genesis by proposals that were made; so does every record
of every host; and what a tracker holds is the block of a digest that its host has on record. -/
theorem records_rooted_in_proposals (hA : A.CollisionFree) (hz : A.NonZero) (hr : A.RoundTrips)
    (g : Genesis A) (cfg : ι → Config A) (hcfg : ∀ i, (cfg i).genesis = g)
    (es : List (ι × Option (Node.Event (Reth A))))
    (hreth : ∀ ie ∈ es, ∀ e, ie.2 = some e → HonestReth e) :
    let s := run (hosts A).netStep (clusterStart cfg) es
    (∀ p d, Proposed s.wire p d →
        ChildOf g p d ∧ ReflTransGen (Proposed s.wire) Digest.EMPTY p) ∧
      ∀ i, (∀ d, ((s.party i).2.info d).isSome → ReflTransGen (Proposed s.wire) Digest.EMPTY d) ∧
        ∃ d, ((s.party i).2.info d).isSome ∧ (s.party i).2.tracker.finalized.1 = g.hashOf d := by
  obtain ⟨hpermitted, htree⟩ := clusterTree_run hA hz hr hcfg hreth
  have hrooted := SharedTree.rooted_run hpermitted
  have hproposed : ∀ {p d}, ReflTransGen _ p d → ReflTransGen (Proposed _) p d := fun h =>
    ReflTransGen.mono (fun p d => (htree.links p d).mp) _ _ h
  refine ⟨fun p d hpd => ?_, fun i => ⟨fun d hd => ?_, ?_⟩⟩
  · have hlink := (htree.links p d).mpr hpd
    exact ⟨hrooted.child p d hlink, hproposed (hrooted.parent p d hlink)⟩
  · exact hproposed (hrooted.book i d (((htree.node i).book d).mpr hd))
  · exact ⟨_, ((htree.node i).book _).mp (hrooted.final i), (htree.node i).final⟩

end Results

/-! ## A cluster of two -/

/-- Host `true` proposes block `one`. Host `false` restarts and takes it over. Then `true`
finalizes it. -/
theorem two_hosts_grow_one :
    trace (hosts sampleAlloy).netStep (treeActions sampleAlloy) (clusterStart fun _ => sampleConfig)
        finalityRun =
      [.propose true Digest.EMPTY SampleHeader.one.digest, .lose false,
        .take false Digest.EMPTY SampleHeader.one.digest,
        .finalize true SampleHeader.one.digest] ∧
      Along (SharedTree.next Digest.EMPTY) (SharedTree.Permits (ChildOf sampleConfig.genesis))
        (SharedTree.start Digest.EMPTY)
        [.propose true Digest.EMPTY SampleHeader.one.digest, .lose false,
          .take false Digest.EMPTY SampleHeader.one.digest,
          .finalize true SampleHeader.one.digest] := by
  have hacts : trace (hosts sampleAlloy).netStep (treeActions sampleAlloy)
      (clusterStart fun _ => sampleConfig) finalityRun =
      [.propose true Digest.EMPTY SampleHeader.one.digest, .lose false,
        .take false Digest.EMPTY SampleHeader.one.digest,
        .finalize true SampleHeader.one.digest] := by decide
  refine ⟨hacts, ?_⟩
  rw [← hacts]
  exact (cluster_refines_tree sampleAlloy_collisionFree sampleAlloy_nonZero sampleAlloy_roundTrips
    sampleConfig.genesis (fun _ : Bool => sampleConfig) (fun _ => rfl) finalityRun
    finalityRun_honestReth).1

theorem restarted_host_record_rooted :
    ReflTransGen
      (Proposed (run (hosts sampleAlloy).netStep (clusterStart fun _ : Bool => sampleConfig)
        finalityRun).wire) Digest.EMPTY SampleHeader.one.digest :=
  ((records_rooted_in_proposals sampleAlloy_collisionFree sampleAlloy_nonZero
    sampleAlloy_roundTrips sampleConfig.genesis (fun _ => sampleConfig) (fun _ => rfl) finalityRun
    finalityRun_honestReth).2 false).1 SampleHeader.one.digest (by decide)

end Allegro
