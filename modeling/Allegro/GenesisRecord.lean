import Allegro.EngineSteps
import Allegro.Lib.Run

/-!
# The record of genesis

`Actor::new` keeps the record of genesis under the `EMPTY` digest, in the map
that `handle_propose` and `handle_verify` write to. A proposal writes under the
hash of the block it built, so it stays away from `EMPTY` as long as block
hashes are not zero. A verification writes under the payload the engine names,
and the payload may be `EMPTY`: any peer can put bytes under 32 zero bytes into
`received_blocks`, and if the builder accepts them the record of genesis is
replaced.

Results:
1. `sparesGenesis_step`: a step keeps the record exactly when it is not such a
   verification (`SparesGenesis`).
2. `genesis_record_iff_spared`: the same for whole runs.
3. `empty_payload_replaces_genesis`: a run that replaces the record.
-/

namespace Allegro

open Run

/-- The root of parent tracking: `EMPTY` holds the record of genesis. -/
def KeepsGenesis (g : GenesisInfo) (s : App) : Prop := s.info Digest.EMPTY = some g.record

/-- The builder's answers name blocks by non-zero hashes. -/
def NonZeroHash : App.Event → Prop
  | .built (.ok payload) => payload.blockHash ≠ B256.ZERO
  | .validated (.ok (.valid m)) => m.hash ≠ B256.ZERO
  | _ => True

/-- No `Verify` for the `EMPTY` digest is accepted, unless what it would record
is the record of genesis itself. -/
def SparesGenesis (g : GenesisInfo) (s : App) : App.Event → Prop
  | .validated (.ok (.valid m)) =>
    match s.stage with
    | .validating msg _ _ =>
      msg.payload = Digest.EMPTY → Actor.timestampsAgree m = true →
        Actor.verifiedInfo msg m = g.record
    | _ => True
  | _ => True

namespace GenesisRecordLemmas

variable {g : GenesisInfo} {s : App} {e : App.Event}

theorem keepsGenesis_step (hz : NonZeroHash e) (h : KeepsGenesis g s)
    (hC : SparesGenesis g s e) : KeepsGenesis g (s.step e) := by
  have hsome := App.info_step_isSome e (Option.isSome_iff_exists.mpr ⟨_, h⟩)
  obtain ⟨i, hi⟩ := Option.isSome_iff_exists.mp hsome
  rcases App.info_step_cases hi with hold | hrec
  · unfold KeepsGenesis
    rw [hi, ← hold]
    exact h
  · -- the record at `EMPTY` after the step is one that the step wrote
    unfold KeepsGenesis
    rw [hi]
    generalize hd : Digest.EMPTY = d at hrec
    cases hrec with
    | proposed hstage => exact absurd (congrArg Digest.get hd).symm hz
    | verified hstage hm =>
      simp only [SparesGenesis, hstage] at hC
      rw [hC hd.symm hm]

theorem sparesGenesis_of_keepsGenesis (hl : s.blockInfo.poisoned = false)
    (h : KeepsGenesis g (s.step e)) : SparesGenesis g s e := by
  unfold SparesGenesis
  split
  · next m =>
    split
    · next msg bytes ph hstage =>
      intro hd hm
      have hrec := App.info_step_of_records hl (.verified hstage hm)
      rw [hd] at hrec
      exact Option.some.inj (hrec.symm.trans h)
    · trivial
  · trivial

theorem sparesGenesis_step (hl : s.Healthy) (hz : NonZeroHash e) (h : KeepsGenesis g s) :
    SparesGenesis g s e ↔ KeepsGenesis g (s.step e) :=
  ⟨keepsGenesis_step hz h, sparesGenesis_of_keepsGenesis hl.blockInfo⟩

end GenesisRecordLemmas

open GenesisRecordLemmas

/-- Whatever the engine asks, whatever peers send and whatever the builder
answers (with non-zero block hashes), `EMPTY` holds the record of genesis
throughout a run exactly when no `Verify` for `EMPTY` is accepted with another
record. -/
theorem genesis_record_iff_spared (validators : ValidatorSet) (metrics : Option ConsensusMetrics)
    (g : GenesisInfo) (es : List App.Event) (hz : ∀ e ∈ es, NonZeroHash e) :
    Along App.step (SparesGenesis g) (App.new validators metrics g) es ↔
      Always App.step (KeepsGenesis g) (App.new validators metrics g) es :=
  along_iff_always (H := fun s => s.Healthy) (fun _ e hs => App.healthy_step e hs)
    (fun _ _ hl hz' h => sparesGenesis_step hl hz' h) (along_of_forall hz)
    (App.healthy_new validators metrics g) (App.info_new_empty validators metrics g)

/-! ## Two runs -/

namespace GenesisRecordLemmas

/-- A proposal on genesis is built, and a `Verify` for `EMPTY` finds no bytes. -/
def sparedRun : List App.Event :=
  [.enqueue (.propose ⟨(0, .EMPTY), ⟨0, 1⟩, sampleKey⟩), .recv 11000,
    .built (.ok ⟨[2], B256.repeatByte 2, 1, 11000⟩),
    .enqueue (.verify ⟨(1, .EMPTY), .EMPTY, sampleKey, ⟨0, 2⟩⟩), .recv 12000]

/-- A peer sends a block under 32 zero bytes, and the engine asks to verify the
`EMPTY` digest. -/
def poisonedRun : List App.Event :=
  [.blockMessage (wireMessage .EMPTY [4]),
    .enqueue (.verify ⟨(0, .EMPTY), .EMPTY, sampleKey, ⟨0, 1⟩⟩), .recv 11000,
    .validated (.ok (.valid ⟨B256.repeatByte 4, 1, 11, 11000⟩))]

end GenesisRecordLemmas

theorem genesis_record_kept_when_spared :
    Always App.step (KeepsGenesis sampleGenesisInfo)
      (App.new sampleValidators none sampleGenesisInfo) sparedRun := by
  refine (genesis_record_iff_spared sampleValidators none sampleGenesisInfo sparedRun ?_).mp ?_
  · intro e he
    simp only [sparedRun, List.mem_cons, List.not_mem_nil, or_false] at he
    rcases he with rfl | rfl | rfl | rfl | rfl
    · trivial
    · trivial
    · exact (by decide : B256.repeatByte 2 ≠ B256.ZERO)
    · trivial
    · trivial
  · exact ⟨trivial, trivial, trivial, trivial, trivial, trivial⟩

/-- The record of genesis is replaced by that of a peer's block: later proposals
on genesis build on that block. -/
theorem empty_payload_replaces_genesis :
    (∀ e ∈ poisonedRun, NonZeroHash e) ∧
      (run App.step (App.new sampleValidators none sampleGenesisInfo) poisonedRun).answers =
        [.verified ⟨(0, .EMPTY), .EMPTY, sampleKey, ⟨0, 1⟩⟩ true] ∧
      (run App.step (App.new sampleValidators none sampleGenesisInfo) poisonedRun).info .EMPTY =
        some ⟨1, B256.repeatByte 4, 1, sampleKey, 11, 11000⟩ ∧
      ¬ KeepsGenesis sampleGenesisInfo
        (run App.step (App.new sampleValidators none sampleGenesisInfo) poisonedRun) := by
  refine ⟨?_, by decide, by decide, by unfold KeepsGenesis; decide⟩
  intro e he
  simp only [poisonedRun, List.mem_cons, List.not_mem_nil, or_false] at he
  rcases he with rfl | rfl | rfl | rfl
  · trivial
  · trivial
  · trivial
  · exact (by decide : B256.repeatByte 4 ≠ B256.ZERO)

end Allegro
