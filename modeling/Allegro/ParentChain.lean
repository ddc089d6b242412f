import Allegro.Node
import Mathlib.Logic.Relation

/-!
# Does a verified block extend its consensus parent?

`handle_verify` hands the expected parent hash to the payload builder, and the
production validate closure does not look at it. Reth checks a block against the
parent that the block's own header names. So a block that is accepted extends
its consensus parent exactly when its header names the hash recorded for that
parent (`NamesParent`), and nothing in the node compares the two.

Results:
1. `verifiedExtends_of_namesParent`: where reth checks numbers against the
   header's own parent, naming the recorded parent is enough for the number too.
2. `execLink_of_consensusLink`: in a run that meets the condition, every record
   is that of a child of the block recorded for its consensus parent.
3. `consensusChain_of_known`: where parents are known, every record ends a chain
   of consensus parents that starts at genesis.
4. `verified_blocks_extend_iff_headers_name_parent`: the above, for whole runs.
-/

namespace Allegro

open Run Node Relation

section Definitions

variable (A : Alloy)

/-- The header is that of a child of the recorded block `p`. -/
def ExtendsRecord (h : A.Header) (p : BlockInfo) : Prop :=
  A.parentHash h = p.hash ∧ (A.number h).toNat = p.number.toNat + 1

/-- If this step answers `true` to a `Verify` whose parent is recorded, the block
that was validated extends the record of the parent. -/
def VerifiedExtends (n : Node) (e : Node.Event (Reth A)) : Prop :=
  ∀ msg bytes ph block rest p, n.stage = .validating msg bytes ph →
    A.decode bytes = .ok (block, rest) → n.info msg.parent.2 = some p →
    (n.prodStep A e).answers = n.answers ++ [.verified msg true] → ExtendsRecord A block.header p

/-- The block under verification names the hash recorded for its consensus
parent, or the execution layer does not report it valid. -/
def NamesParent (n : Node) : Node.Event (Reth A) → Prop
  | .validated reth =>
    match n.stage with
    | .validating msg bytes _ =>
      match A.decode bytes with
      | .ok (block, _) =>
        reth.newPayload block = .ok .valid →
          Actor.timestampsAgree (blockMeta A block.header) = true →
          ∀ p, n.info msg.parent.2 = some p → A.parentHash block.header = p.hash
      | .error _ => True
    | _ => True
  | _ => True

/-- What the step records, it records for a consensus parent that is recorded. -/
def KnowsParent (n : Node) (e : Node.Event (Reth A)) : Prop :=
  ∀ d i parent, RecordsOn A n e d i parent → (n.info parent).isSome

variable {A} in
/-- The record `y` was written in the run for a message whose consensus parent
was at that time recorded as `x`. -/
def ConsensusLink (c : Config A) (es : List (Node.Event (Reth A)))
    (x y : Digest × BlockInfo) : Prop :=
  ∃ es₁ e es₂, es = es₁ ++ e :: es₂ ∧
    RecordsOn A (run (prodStep A) (Node.start c) es₁) e y.1 y.2 x.1 ∧
    (run (prodStep A) (Node.start c) es₁).info x.1 = some x.2

/-- The record `y` is that of a child of the block of the record `x`. -/
def ExecLink (x y : Digest × BlockInfo) : Prop :=
  ∃ h, A.hashSlow h = y.2.hash ∧ A.number h = y.2.number ∧ ExtendsRecord A h x.2

/-- Every record has the hash and the number of a header. -/
def Backed (n : Node) : Prop :=
  ∀ d i, n.info d = some i → ∃ h, A.hashSlow h = i.hash ∧ A.number h = i.number

end Definitions

namespace ParentChainLemmas

variable {A : Alloy} {n : Node} {e : Node.Event (Reth A)}

/-! ## Answers -/

/-- A step that answers `true` is the builder's `Valid` for the bytes under verification. -/
theorem accepted_of_answers {msg : Verify}
    (h : (n.prodStep A e).answers = n.answers ++ [.verified msg true]) :
    ∃ reth bytes ph m, e = .validated reth ∧ n.stage = .validating msg bytes ph ∧
      validateClosure A reth ⟨bytes, ph⟩ = .ok (.valid m) ∧ Actor.timestampsAgree m = true := by
  have hne : n.answers ≠ n.answers ++ [.verified msg true] := by simp
  rcases toApp_step (B := createEnginePayloadBuilder A) n e with hs | ⟨ae, hae, hs⟩
  · rw [hs] at h
    exact absurd h hne
  · rw [hs] at h
    rcases App.answers_step n.toApp ae with hsame | ⟨answer, hr, hnew⟩
    · rw [hsame] at h
      exact absurd h hne
    · have ha : answer = .verified msg true := by
        rw [hnew] at h
        simpa using h
      subst ha
      cases hr with
      | accepted hstage hm =>
        obtain ⟨reth, rfl, hv⟩ := drives_validated hae hstage
        exact ⟨reth, _, _, _, rfl, hstage, hv, hm⟩

theorem answers_of_accepted {msg : Verify} {reth : Reth A} {bytes : Bytes} {ph : B256}
    {m : BlockMeta} (hstage : n.stage = .validating msg bytes ph)
    (hv : validateClosure A reth ⟨bytes, ph⟩ = .ok (.valid m))
    (hm : Actor.timestampsAgree m = true) :
    (n.prodStep A (.validated reth)).answers = n.answers ++ [.verified msg true] := by
  have hb : (createEnginePayloadBuilder A).validateBlock reth bytes ph = .ok (.valid m) := hv
  simp only [prodStep, step, appStep, appEvent, hstage, hb, App.step, App.finishVerify,
    App.respond, Actor.verifyRecord_accepts _ msg hm]

/-! ## Records and headers -/

theorem backed_step (h : Backed A n) : Backed A (n.prodStep A e) := by
  intro d i hi
  rcases Node.info_step_cases hi with hold | hrec
  · exact h d i hold
  · cases hrec with
    | proposed _ _ hb =>
      obtain ⟨block, _, rfl⟩ := buildClosure_ok hb
      exact ⟨block.header, rfl, rfl⟩
    | verified _ hv _ =>
      obtain ⟨block, _, _, _, rfl⟩ := validateClosure_valid.mp hv
      exact ⟨block.header, rfl, rfl⟩

theorem backed_start (c : Config A) : Backed A (Node.start c) := by
  intro d i hi
  obtain ⟨_, rfl⟩ := App.info_new hi
  exact ⟨c.genesis.header, rfl, c.genesis.number_zero⟩

/-- A header with the next number after the block it names extends the record
of that block: two headers with one hash are one header. -/
theorem extendsRecord_of_parentHash (hA : A.CollisionFree) (hn : Backed A n) {d : Digest}
    {p : BlockInfo} (hp : n.info d = some p) {h parent : A.Header}
    (hname : A.parentHash h = p.hash) (hhash : A.hashSlow parent = A.parentHash h)
    (hnum : (A.number h).toNat = (A.number parent).toNat + 1) : ExtendsRecord A h p := by
  obtain ⟨hdr, hhdr, hhdrnum⟩ := hn d p hp
  have hsame : parent = hdr := hA (by rw [hhash, hname, hhdr])
  refine ⟨hname, ?_⟩
  rw [hnum, hsame, hhdrnum]

/-! ## One step -/

theorem verifiedExtends_of_namesParent (hA : A.CollisionFree) (hn : Backed A n)
    (hreth : ∀ reth, e.env = some reth → reth.ExtendsParent) (h : NamesParent A n e) :
    VerifiedExtends A n e := by
  intro msg bytes ph block rest p hstage hdec hp hans
  obtain ⟨reth, bytes', ph', m, rfl, hstage', hv, hm⟩ := accepted_of_answers hans
  cases hstage.symm.trans hstage'
  obtain ⟨block', rest', hdec', hvalid, rfl⟩ := validateClosure_valid.mp hv
  cases hdec.symm.trans hdec'
  simp only [NamesParent, hstage, hdec] at h
  obtain ⟨parent, hhash, hnum⟩ := hreth reth rfl block hvalid
  exact extendsRecord_of_parentHash hA hn hp (h hvalid hm p hp) hhash hnum

theorem namesParent_of_verifiedExtends (h : VerifiedExtends A n e) : NamesParent A n e := by
  cases e with
  | validated reth =>
    simp only [NamesParent]
    split
    · next msg bytes ph hstage =>
      split
      · next block rest hdec =>
        intro hvalid hm p hp
        have hv : validateClosure A reth ⟨bytes, ph⟩ = .ok (.valid (blockMeta A block.header)) :=
          validateClosure_valid.mpr ⟨block, rest, hdec, hvalid, rfl⟩
        exact (h msg bytes ph block rest p hstage hdec hp
          (answers_of_accepted hstage hv hm)).1
      · trivial
    · trivial
  | _ => trivial

/-- What a step records on a recorded parent is a child of that parent. For an
own block this is what the build request asked for. -/
theorem execLink_of_recordsOn (hA : A.CollisionFree) (hn : Backed A n) (hreq : n.RequestCurrent)
    (hreth : ∀ reth, e.env = some reth → reth.ExtendsParent ∧ reth.BuildsOnHead)
    (hC : NamesParent A n e) {d parent : Digest} {i p : BlockInfo}
    (h : RecordsOn A n e d i parent) (hp : n.info parent = some p) :
    ExecLink A (parent, p) (d, i) := by
  cases h with
  | proposed hstage hanchor hb =>
    obtain ⟨block, hjob, rfl⟩ := buildClosure_ok hb
    obtain ⟨_, hparent, hdr, hhash, hnum⟩ := (hreth _ rfl).2 _ _ _ hjob
    obtain ⟨nowMillis, rfl⟩ := hreq _ _ hstage
    have hhead : A.parentHash block.header = p.hash := by
      rw [hparent]
      exact (Actor.buildRequest_known nowMillis hp).1
    refine ⟨block.header, rfl, rfl, ?_⟩
    exact extendsRecord_of_parentHash hA hn hp hhead (hhash.trans hparent.symm) hnum
  | verified hstage hv hm =>
    obtain ⟨block, rest, hdec, _, rfl⟩ := validateClosure_valid.mp hv
    have hext := verifiedExtends_of_namesParent hA hn (fun reth hr => (hreth reth hr).1) hC
    exact ⟨block.header, rfl, rfl,
      hext _ _ _ block rest p hstage hdec hp (answers_of_accepted hstage hv hm)⟩

/-! ## Runs -/

theorem inv_run (c : Config A) (es : List (Node.Event (Reth A))) :
    Backed A (run (prodStep A) (Node.start c) es) ∧
      (run (prodStep A) (Node.start c) es).RequestCurrent := by
  refine run_invariant (P := fun n => Backed A n ∧ n.RequestCurrent) ?_ ?_ es
  · intro n e hn
    exact ⟨backed_step hn.1, Node.requestCurrent_step e hn.2⟩
  · exact ⟨backed_start c, App.requestCurrent_new _ _ _⟩

theorem execLink_of_consensusLink (hA : A.CollisionFree) {c : Config A}
    {es : List (Node.Event (Reth A))}
    (hreth : ∀ e ∈ es, ∀ reth, e.env = some reth → reth.ExtendsParent ∧ reth.BuildsOnHead)
    (hC : Along (prodStep A) (NamesParent A) (Node.start c) es) {x y : Digest × BlockInfo}
    (h : ConsensusLink c es x y) : ExecLink A x y := by
  obtain ⟨es₁, e, es₂, rfl, hrec, hx⟩ := h
  obtain ⟨hbacked, hreq⟩ := inv_run c es₁
  have he : e ∈ es₁ ++ e :: es₂ := by simp
  exact execLink_of_recordsOn hA hbacked hreq (hreth e he) hC.at hrec hx

theorem ConsensusLink.mono {c : Config A} {es : List (Node.Event (Reth A))}
    {e : Node.Event (Reth A)} {x y : Digest × BlockInfo} (h : ConsensusLink c es x y) :
    ConsensusLink c (es ++ [e]) x y := by
  obtain ⟨es₁, e', es₂, rfl, hrec, hx⟩ := h
  exact ⟨es₁, e', es₂ ++ [e], by simp, hrec, hx⟩

/-- Where the parents of all records are known when the records are written, a
chain of consensus parents leads from genesis to every record. -/
theorem consensusChain_of_known {c : Config A} (es : List (Node.Event (Reth A)))
    (hK : Along (prodStep A) (KnowsParent A) (Node.start c) es) :
    ∀ d i, (run (prodStep A) (Node.start c) es).info d = some i →
      ReflTransGen (ConsensusLink c es) (Digest.EMPTY, c.genesis.info.record) (d, i) := by
  -- the invariant looks back at the run: links of a prefix are links of the run
  refine trace_invariant (prodStep A) (Node.start c)
    (P := fun es n => Along (prodStep A) (KnowsParent A) (Node.start c) es →
      ∀ d i, n.info d = some i →
        ReflTransGen (ConsensusLink c es) (Digest.EMPTY, c.genesis.info.record) (d, i))
    ?_ ?_ es hK
  · intro _ d i hi
    obtain ⟨rfl, rfl⟩ := App.info_new hi
    exact .refl
  · intro es e ih hK d i hi
    obtain ⟨hKes, hKe, _⟩ := along_append.mp hK
    have hmono : ∀ d i, (run (prodStep A) (Node.start c) es).info d = some i →
        ReflTransGen (ConsensusLink c (es ++ [e])) (Digest.EMPTY, c.genesis.info.record) (d, i) :=
      fun d i hi => ReflTransGen.mono (fun _ _ => ConsensusLink.mono) _ _ (ih hKes d i hi)
    rcases Node.info_step_cases hi with hold | hrec
    · exact hmono d i hold
    · obtain ⟨parent, hon⟩ := recordsOn_of_records hrec
      obtain ⟨p, hp⟩ := Option.isSome_iff_exists.mp (hKe d i parent hon)
      exact (hmono parent p hp).tail ⟨es, e, [], rfl, hon, hp⟩

end ParentChainLemmas

open ParentChainLemmas

/-- In every run with a reth that checks a block against the parent its header
names: every `true` to a `Verify` with a recorded parent is for a block that
extends the record of that parent, with its hash and the next number, exactly
when every accepted header names the hash recorded for its consensus parent.
Then the chain of execution parents follows the chain of consensus parents,
down to genesis where the parents were known. -/
theorem verified_blocks_extend_iff_headers_name_parent {A : Alloy} (hA : A.CollisionFree)
    (c : Config A) (es : List (Node.Event (Reth A)))
    (hreth : ∀ e ∈ es, ∀ reth, e.env = some reth → reth.ExtendsParent ∧ reth.BuildsOnHead) :
    (Along (prodStep A) (NamesParent A) (Node.start c) es ↔
      Along (prodStep A) (VerifiedExtends A) (Node.start c) es) ∧
    (Along (prodStep A) (NamesParent A) (Node.start c) es →
      (∀ x y, ReflTransGen (ConsensusLink c es) x y → ReflTransGen (ExecLink A) x y) ∧
      (Along (prodStep A) (KnowsParent A) (Node.start c) es →
        ∀ d i, (run (prodStep A) (Node.start c) es).info d = some i →
          ReflTransGen (ExecLink A) (Digest.EMPTY, c.genesis.info.record) (d, i))) := by
  refine ⟨⟨fun h => ?_, fun h => h.mono fun n e => namesParent_of_verifiedExtends⟩, fun h => ?_⟩
  · refine along_of_splits fun es₁ e es₂ hes => ?_
    subst hes
    have he : e ∈ es₁ ++ e :: es₂ := by simp
    exact verifiedExtends_of_namesParent hA (inv_run c es₁).1
      (fun reth hr => (hreth e he reth hr).1) h.at
  · have hlink : ∀ x y, ReflTransGen (ConsensusLink c es) x y → ReflTransGen (ExecLink A) x y :=
      ReflTransGen.mono fun _ _ => execLink_of_consensusLink hA hreth h
    exact ⟨hlink, fun hK d i hi => hlink _ _ (consensusChain_of_known es hK d i hi)⟩

/-! ## Two runs -/

/-- Block `one` is verified on genesis. A leader then proposes `fork`, a valid
block on genesis, as the consensus child of `one`. -/
def siblingRun : List (Node.Event (Reth sampleAlloy)) :=
  [.blockMessage (wireMessage SampleHeader.one.digest [2]),
    .blockMessage (wireMessage SampleHeader.fork.digest [4]),
    .enqueue (.verify (sampleVerify .EMPTY SampleHeader.one.digest 1)), .recv 0,
    .validated (sampleReth .one),
    .enqueue (.verify (sampleVerify SampleHeader.one.digest SampleHeader.fork.digest 2)), .recv 0]

/-- The steps of both runs carry answers of `sampleReth`. -/
theorem sampleReth_of_env {es : List (Node.Event (Reth sampleAlloy))}
    (h : ∀ e ∈ es, ∀ reth, e.env = some reth → ∃ block, reth = sampleReth block) :
    ∀ e ∈ es, ∀ reth, e.env = some reth → reth.ExtendsParent ∧ reth.BuildsOnHead := by
  intro e he reth hr
  obtain ⟨block, rfl⟩ := h e he reth hr
  exact ⟨sampleReth_extendsParent block, sampleReth_buildsOnHead block⟩

theorem chain_blocks_extend_parents :
    Along (prodStep sampleAlloy) (VerifiedExtends sampleAlloy) (Node.start sampleConfig)
        sampleChainRun ∧
      ReflTransGen (ConsensusLink sampleConfig sampleChainRun)
        (SampleHeader.one.digest, ⟨1, SampleHeader.one.hash, 1, sampleKey, 11, 11000⟩)
        (SampleHeader.two.digest, ⟨2, SampleHeader.two.hash, 2, sampleKey, 12, 12000⟩) ∧
      ReflTransGen (ExecLink sampleAlloy)
        (SampleHeader.one.digest, ⟨1, SampleHeader.one.hash, 1, sampleKey, 11, 11000⟩)
        (SampleHeader.two.digest, ⟨2, SampleHeader.two.hash, 2, sampleKey, 12, 12000⟩) := by
  have hreth : ∀ e ∈ sampleChainRun, ∀ reth, e.env = some reth →
      reth.ExtendsParent ∧ reth.BuildsOnHead := by
    refine sampleReth_of_env fun e he reth hr => ?_
    simp only [sampleChainRun, List.mem_cons, List.not_mem_nil, or_false] at he
    rcases he with rfl | rfl | rfl | rfl | rfl | rfl | rfl | rfl <;> cases hr
    · exact ⟨_, rfl⟩
    · exact ⟨_, rfl⟩
  have h := verified_blocks_extend_iff_headers_name_parent sampleAlloy_collisionFree sampleConfig
    sampleChainRun hreth
  have hC : Along (prodStep sampleAlloy) (NamesParent sampleAlloy) (Node.start sampleConfig)
      sampleChainRun := by
    refine ⟨trivial, trivial, trivial, trivial, fun _ _ p hp => ?_, trivial, trivial,
      fun _ _ p hp => ?_, trivial⟩
    · cases hp
      rfl
    · cases hp
      rfl
  have hlink : ReflTransGen (ConsensusLink sampleConfig sampleChainRun)
      (SampleHeader.one.digest, ⟨1, SampleHeader.one.hash, 1, sampleKey, 11, 11000⟩)
      (SampleHeader.two.digest, ⟨2, SampleHeader.two.hash, 2, sampleKey, 12, 12000⟩) := by
    have hstage : (run (prodStep sampleAlloy) (Node.start sampleConfig)
        (sampleChainRun.take 7)).stage =
        .validating (sampleVerify SampleHeader.one.digest SampleHeader.two.digest 2) [3]
          SampleHeader.one.hash := rfl
    have hv : validateClosure sampleAlloy (sampleReth .two) ⟨[3], SampleHeader.one.hash⟩ =
        .ok (.valid (blockMeta sampleAlloy SampleHeader.two)) := rfl
    have hm : Actor.timestampsAgree (blockMeta sampleAlloy SampleHeader.two) = true := rfl
    have hrec := RecordsOn.verified hstage hv hm
    exact .single ⟨sampleChainRun.take 7, .validated (sampleReth .two), [], rfl, hrec, by decide⟩
  exact ⟨h.1.mp hC, hlink, (h.2 hC).1 _ _ hlink⟩

/-- The node answers `true` for `fork` as a child of `one`: it has the parent and
the number of `one` itself. -/
theorem sibling_accepted_as_child :
    let n := run (prodStep sampleAlloy) (Node.start sampleConfig) siblingRun
    let n' := n.prodStep sampleAlloy (.validated (sampleReth .fork))
    (sampleReth .fork).ExtendsParent ∧
      n.info SampleHeader.one.digest = some ⟨1, SampleHeader.one.hash, 1, sampleKey, 11, 11000⟩ ∧
      n'.answers = n.answers ++
        [.verified (sampleVerify SampleHeader.one.digest SampleHeader.fork.digest 2) true] ∧
      n'.info SampleHeader.fork.digest =
        some ⟨1, SampleHeader.fork.hash, 2, sampleKey, 11, 11000⟩ ∧
      ¬ VerifiedExtends sampleAlloy n (.validated (sampleReth .fork)) := by
  refine ⟨sampleReth_extendsParent .fork, by decide, by decide, by decide, fun h => ?_⟩
  have hext := h (sampleVerify SampleHeader.one.digest SampleHeader.fork.digest 2) [4]
    SampleHeader.one.hash ⟨SampleHeader.fork, ()⟩ []
    ⟨1, SampleHeader.one.hash, 1, sampleKey, 11, 11000⟩ (by decide) rfl (by decide) (by decide)
  exact absurd hext.1 (by decide)

end Allegro
