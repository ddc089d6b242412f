import Allegro.Config
import Allegro.Engine
import Allegro.Main

/-!
# Starting the simplex engine

`start_simplex_engine` (`crates/consensus/src/engine.rs`): the configuration is validated,
the validators become the ordered set of participants, and the simplex engine gets
its configuration. Two things panic on the consensus thread: `NZU16!` and `NZUsize!` on
zero, and the channel of the actor's mailbox on a size that is too large.

Results:
1. `startSimplexEngine_eq`, `startSimplexEngine_eq_ok`: a start by its stages, and when it
   succeeds.
2. `started_scheme`: the scheme is the one of `signingScheme`.
3. `participants_eq`, `startSimplexEngine_refuses`: the check for duplicates never fails.
   The keys of a map are distinct.
4. `validated_start_iff`: a validated configuration with validators starts, with its
   timeouts in order, exactly if the four sizes that `validate` does not look at are
   not zero and the mailbox, which it only checks for zero, is not too large;
   `zero_write_buffer_panics`: one of them is enough for a panic.
-/

namespace Allegro

open Fallible (rejectIf bind_eq_ok error_bind orError orError_eq_ok orError_error)

/-- The order in which `ValidatorSet::keys` lists a map: any order, each key once. -/
structure KeyOrder where
  keys : ValidatorSet → List PublicKey
  keys_eq : ∀ set, (keys set : Multiset PublicKey) = set.keys.val

/-- `EngineConfig`, with the public half of the signing key. -/
structure EngineConfig where
  publicKey : PublicKey
  validators : ValidatorSet
  consensusConfig : ConsensusConfig
  metrics : Option ConsensusMetrics
  genesis : GenesisInfo

/-- `std::num::NonZero`. -/
abbrev NonZero (α : Type) [OfNat α 0] := { a : α // a ≠ 0 }

/-- The values that are converted with `NZU16!` and `NZUsize!`. -/
inductive Conversion
  | pageCachePages
  | pageCacheCapacity
  | mailboxSize
  | replayBufferSize
  | writeBufferSize
deriving DecidableEq

/-- What a start panics in. -/
inductive StartPanic
  | conversion (conversion : Conversion)
  /-- "requested buffer size too large", in `mpsc::channel` -/
  | mailboxChannel
deriving DecidableEq

/-- How a start ends without an engine: an error for the caller, or a panic. -/
inductive StartFailure
  | err (e : EngineError)
  | panic (p : StartPanic)
deriving DecidableEq

/-- `NonZero::new`. -/
def NonZero.new {α : Type} [OfNat α 0] [DecidableEq α] (a : α) : Option (NonZero α) :=
  if h : a ≠ 0 then some ⟨a, h⟩ else none

/-- `NZU16!` and `NZUsize!`. -/
def nonZero {α : Type} [OfNat α 0] [DecidableEq α] (conversion : Conversion) (a : α) :
    Except StartFailure (NonZero α) :=
  orError (.panic (.conversion conversion)) (NonZero.new a)

/-- What `RoundRobin::with_term` gets: a term of consecutive views under one leader. -/
structure Term where
  length : NonZero UInt32
  stallTimeout : Duration
  optimisticViews : UInt64
deriving DecidableEq

/-- The term of the elector. A length of one is the rotation in every view. -/
def electorTerm (cc : ConsensusConfig) : Option Term :=
  ((NonZero.new cc.termLength).filter fun length => 1 < length.val).map fun length =>
    ⟨length, cc.stallTimeout, cc.optimisticViews⟩

/-- Commonware has one policy for both of ours. -/
def ForwardingPolicy.simplex : ForwardingPolicy → ForwardingPolicy
  | .silentVoters => .silentVoters
  | .all => .silentVoters

/-- `simplex::Config`. -/
structure SimplexConfig where
  participants : Finset PublicKey
  scheme : Scheme
  elector : Option Term
  trackHistoricalVotes : Bool
  mailboxSize : NonZero UInt64
  epoch : UInt64
  floor : Digest
  leaderTimeout : Duration
  certificationTimeout : Duration
  timeoutRetry : Duration
  viewRetention : UInt64
  skipTimeout : Duration
  fetchTimeout : Duration
  forwarding : ForwardingPolicy
  replayBuffer : NonZero UInt64
  writeBuffer : NonZero UInt64
  pageCache : NonZero UInt16 × NonZero UInt64
deriving DecidableEq

/-- The page cache and the configuration of the engine, in the order of the conversions. -/
def simplexConfig (cfg : EngineConfig) (participants : Finset PublicKey) :
    Except StartFailure SimplexConfig := do
  let cc := cfg.consensusConfig
  let pageCachePages ← nonZero .pageCachePages cc.pageCachePages
  let pageCacheCapacity ← nonZero .pageCacheCapacity cc.pageCacheCapacity
  let mailboxSize ← nonZero .mailboxSize cc.mailboxSize
  let replayBuffer ← nonZero .replayBufferSize cc.replayBufferSize
  let writeBuffer ← nonZero .writeBufferSize cc.writeBufferSize
  .ok {
    participants
    scheme := if cfg.publicKey ∈ participants then .signer else .verifier
    elector := electorTerm cc
    trackHistoricalVotes := cc.trackHistoricalVotes
    mailboxSize
    epoch := 0
    floor := .EMPTY
    leaderTimeout := cc.leaderTimeout
    certificationTimeout := cc.certificationTimeout
    timeoutRetry := cc.timeoutRetry
    viewRetention := cc.viewRetention
    skipTimeout := cc.skipTimeout
    fetchTimeout := cc.fetchTimeout
    forwarding := cc.forwardingPolicy.simplex
    replayBuffer
    writeBuffer
    pageCache := (pageCachePages, pageCacheCapacity)
  }

/-- What runs after a start: the engine with its configuration, and the actor. -/
structure StartedEngine where
  simplex : SimplexConfig
  app : App

/-- The participants: an ordered set. `Set::try_from` refuses a list with a repeated key. -/
def participants (order : KeyOrder) (validators : ValidatorSet) :
    Except EngineError (Finset PublicKey) := do
  let pks := order.keys validators
  rejectIf (pks = []) (.invalidValidatorConfig .empty)
  rejectIf (¬ pks.Nodup) (.invalidValidatorConfig .duplicates)
  .ok pks.toFinset

/-- The actor of the engine, with the mailbox of the configuration. -/
def createActor (cfg : EngineConfig) : Except StartFailure Actor :=
  orError (.panic .mailboxChannel)
    (Actor.new cfg.validators cfg.consensusConfig.mailboxSize cfg.metrics cfg.genesis)

/-- `start_simplex_engine`. -/
def startSimplexEngine (order : KeyOrder) (cfg : EngineConfig) :
    Except StartFailure StartedEngine := do
  cfg.consensusConfig.validate.mapError .err
  let participants ← (participants order cfg.validators).mapError .err
  let actor ← createActor cfg
  let simplex ← simplexConfig cfg participants
  .ok ⟨simplex, { toActor := actor, stage := .idle, answers := [] }⟩

/-! ## When a start succeeds -/

section Start

variable {order : KeyOrder} {cfg : EngineConfig}

namespace KeyOrder

theorem nodup_keys (order : KeyOrder) (set : ValidatorSet) : (order.keys set).Nodup := by
  rw [← Multiset.coe_nodup, order.keys_eq]
  exact set.keys.nodup

theorem toFinset_keys (order : KeyOrder) (set : ValidatorSet) :
    (order.keys set).toFinset = set.keys := by
  ext key
  rw [List.mem_toFinset, ← Multiset.mem_coe, order.keys_eq, Finset.mem_val]

theorem keys_eq_nil {set : ValidatorSet} : order.keys set = [] ↔ set.keys = ∅ := by
  rw [← order.toFinset_keys set, List.toFinset_eq_empty_iff]

/-- The order of some list of the keys. -/
noncomputable def any : KeyOrder := ⟨fun set => set.keys.toList, fun set => set.keys.coe_toList⟩

end KeyOrder

theorem nonZero_eq_ok {α : Type} [OfNat α 0] [DecidableEq α] {conversion : Conversion} {a : α}
    {n : NonZero α} : nonZero conversion a = .ok n ↔ n.val = a := by
  rw [nonZero, orError_eq_ok, NonZero.new]
  split
  · exact ⟨fun h => by cases h; rfl, fun h => congrArg some (Subtype.ext h.symm)⟩
  · next ha =>
    refine ⟨fun h => (nomatch h), ?_⟩
    rintro rfl
    exact absurd n.property ha

/-- The elector hands out terms exactly for a length above one, with the stall timeout. -/
theorem electorTerm_eq (cc : ConsensusConfig) :
    if 1 < cc.termLength then
      ∃ length : NonZero UInt32, length.val = cc.termLength ∧
        electorTerm cc = some ⟨length, cc.stallTimeout, cc.optimisticViews⟩
    else electorTerm cc = none := by
  unfold electorTerm NonZero.new
  split
  · next hlong =>
    have hne : cc.termLength ≠ 0 := by
      intro hzero
      rw [hzero] at hlong
      exact absurd hlong (by decide)
    refine ⟨⟨cc.termLength, hne⟩, rfl, ?_⟩
    rw [dif_pos hne, Option.filter_some, if_pos (decide_eq_true hlong), Option.map_some]
  · next hshort =>
    split
    · rw [Option.filter_some, if_neg (fun h => hshort (of_decide_eq_true h)), Option.map_none]
    · rfl

/-- The sizes that `validate` does not look at. -/
structure SizesNonZero (cc : ConsensusConfig) : Prop where
  pageCachePages : cc.pageCachePages ≠ 0
  pageCacheCapacity : cc.pageCacheCapacity ≠ 0
  replayBufferSize : cc.replayBufferSize ≠ 0
  writeBufferSize : cc.writeBufferSize ≠ 0

theorem createActor_eq (cfg : EngineConfig) :
    createActor cfg =
      if cfg.consensusConfig.mailboxSize < MAX_BUFFER then
        .ok (Actor.fresh cfg.validators cfg.metrics cfg.genesis)
      else .error (.panic .mailboxChannel) := by
  unfold createActor Actor.new
  split
  · rfl
  · rfl

/-- The engine is handed the participants, the scheme, the term and the timeouts of the
configuration. -/
structure Configures (cfg : EngineConfig) (participants : Finset PublicKey) (s : SimplexConfig) :
    Prop where
  scheme : s.scheme = if cfg.publicKey ∈ participants then .signer else .verifier
  participants : s.participants = participants
  elector : s.elector = electorTerm cfg.consensusConfig
  leaderTimeout : s.leaderTimeout = cfg.consensusConfig.leaderTimeout
  certificationTimeout : s.certificationTimeout = cfg.consensusConfig.certificationTimeout
  timeoutRetry : s.timeoutRetry = cfg.consensusConfig.timeoutRetry
  skipTimeout : s.skipTimeout = cfg.consensusConfig.skipTimeout

theorem simplexConfig_ok {participants : Finset PublicKey} {s : SimplexConfig}
    (h : simplexConfig cfg participants = .ok s) :
    SizesNonZero cfg.consensusConfig ∧ Configures cfg participants s := by
  unfold simplexConfig at h
  simp only [bind_eq_ok, nonZero_eq_ok] at h
  obtain ⟨pages, hpages, capacity, hcapacity, mailbox, -, replay, hreplay, write, hwrite, h⟩ := h
  cases h
  exact ⟨⟨hpages ▸ pages.property, hcapacity ▸ capacity.property, hreplay ▸ replay.property,
    hwrite ▸ write.property⟩, rfl, rfl, rfl, rfl, rfl, rfl, rfl⟩

theorem simplexConfig_of_nonZero (participants : Finset PublicKey)
    (hmailbox : cfg.consensusConfig.mailboxSize ≠ 0) (h : SizesNonZero cfg.consensusConfig) :
    ∃ s, simplexConfig cfg participants = .ok s := by
  unfold simplexConfig
  simp only [bind_eq_ok, nonZero_eq_ok]
  exact ⟨_, ⟨_, h.pageCachePages⟩, rfl, ⟨_, h.pageCacheCapacity⟩, rfl, ⟨_, hmailbox⟩, rfl,
    ⟨_, h.replayBufferSize⟩, rfl, ⟨_, h.writeBufferSize⟩, rfl, rfl⟩

/-- The check for duplicates never fails: the keys of a map are distinct. -/
theorem participants_eq (order : KeyOrder) (validators : ValidatorSet) :
    participants order validators =
      if validators.keys = ∅ then .error (.invalidValidatorConfig .empty)
      else .ok validators.keys := by
  have hnodup : ¬ ¬ (order.keys validators).Nodup := not_not.mpr (order.nodup_keys validators)
  show (rejectIf (order.keys validators = []) _ >>= fun _ =>
    rejectIf (¬ (order.keys validators).Nodup) _ >>= fun _ => _) = _
  unfold rejectIf
  rw [if_neg hnodup, order.toFinset_keys]
  split
  · next hnil => rw [if_pos (KeyOrder.keys_eq_nil.mp hnil)]; rfl
  · next hne => rw [if_neg (fun h => hne (KeyOrder.keys_eq_nil.mpr h))]; rfl

/-- A start by its stages: `validate`, the check for validators, the mailbox, and the
conversions. -/
theorem startSimplexEngine_eq (order : KeyOrder) (cfg : EngineConfig) :
    startSimplexEngine order cfg =
      match cfg.consensusConfig.validate with
      | .error e => .error (.err e)
      | .ok () =>
        if cfg.validators.keys = ∅ then .error (.err (.invalidValidatorConfig .empty))
        else if cfg.consensusConfig.mailboxSize < MAX_BUFFER then
          simplexConfig cfg cfg.validators.keys >>= fun simplex =>
            .ok ⟨simplex, App.new cfg.validators cfg.metrics cfg.genesis⟩
        else .error (.panic .mailboxChannel) := by
  unfold startSimplexEngine
  rw [participants_eq, createActor_eq]
  cases cfg.consensusConfig.validate with
  | error e => rfl
  | ok _ =>
    split
    · rfl
    · split
      · rfl
      · rfl

/-- A start that returns an engine has a valid configuration, validators, and a mailbox
that is not too large. -/
theorem startSimplexEngine_eq_ok {started : StartedEngine} :
    startSimplexEngine order cfg = .ok started ↔
      cfg.consensusConfig.validate = .ok () ∧ cfg.validators.keys ≠ ∅ ∧
        cfg.consensusConfig.mailboxSize < MAX_BUFFER ∧
        simplexConfig cfg cfg.validators.keys = .ok started.simplex ∧
        started.app = App.new cfg.validators cfg.metrics cfg.genesis := by
  rw [startSimplexEngine_eq]
  cases cfg.consensusConfig.validate with
  | error e => exact ⟨fun h => (nomatch h), fun h => (nomatch h.1)⟩
  | ok _ =>
    show (if _ then _ else _) = _ ↔ _
    split
    · next hempty => exact ⟨fun h => (nomatch h), fun h => absurd hempty h.2.1⟩
    · next hvalidators =>
      split
      · next hmailbox =>
        rw [bind_eq_ok]
        constructor
        · rintro ⟨simplex, hs, h⟩
          cases h
          exact ⟨rfl, hvalidators, hmailbox, hs, rfl⟩
        · rintro ⟨-, -, -, hs, happ⟩
          refine ⟨started.simplex, hs, ?_⟩
          rw [← happ]
      · next hlarge => exact ⟨fun h => (nomatch h), fun h => absurd h.2.2.1 hlarge⟩

/-- A valid configuration with validators and sizes starts. -/
theorem startSimplexEngine_of_valid (order : KeyOrder) (hvalid : cfg.consensusConfig.Valid)
    (hvalidators : cfg.validators.keys ≠ ∅)
    (hmailbox : cfg.consensusConfig.mailboxSize < MAX_BUFFER)
    (hsizes : SizesNonZero cfg.consensusConfig) :
    ∃ started, startSimplexEngine order cfg = .ok started ∧
      Configures cfg cfg.validators.keys started.simplex := by
  obtain ⟨s, hs⟩ := simplexConfig_of_nonZero cfg.validators.keys hvalid.mailboxSize hsizes
  exact ⟨⟨s, _⟩, startSimplexEngine_eq_ok.mpr
    ⟨ConsensusConfig.validate_eq_ok.mpr hvalid, hvalidators, hmailbox, hs, rfl⟩,
    (simplexConfig_ok hs).2⟩

/-- A valid configuration with validators and a mailbox that is too large panics. -/
theorem startSimplexEngine_large (order : KeyOrder) (hvalid : cfg.consensusConfig.Valid)
    (hvalidators : cfg.validators.keys ≠ ∅)
    (hlarge : ¬ cfg.consensusConfig.mailboxSize < MAX_BUFFER) :
    startSimplexEngine order cfg = .error (.panic .mailboxChannel) := by
  rw [startSimplexEngine_eq, ConsensusConfig.validate_eq_ok.mpr hvalid]
  exact (if_neg hvalidators).trans (if_neg hlarge)

/-- The scheme of a started engine is the one of `signingScheme`. -/
theorem started_scheme {started : StartedEngine}
    (h : startSimplexEngine order cfg = .ok started) :
    signingScheme cfg.validators cfg.publicKey = some started.simplex.scheme := by
  obtain ⟨-, hvalidators, -, hs, -⟩ := startSimplexEngine_eq_ok.mp h
  rw [(simplexConfig_ok hs).2.scheme, signingScheme, if_neg hvalidators]
  simp only [Finmap.mem_keys]
  split
  · rfl
  · rfl

/-- The conversions panic, they do not return an error. -/
theorem simplexConfig_error (participants : Finset PublicKey) :
    ∀ failure, simplexConfig cfg participants = .error failure →
      ∃ p, failure = .panic p := by
  have hconv {α : Type} [OfNat α 0] [DecidableEq α] {conversion : Conversion} {a : α} :
      ∀ failure, nonZero conversion a = .error failure → ∃ p, failure = .panic p :=
    fun failure h => ⟨.conversion conversion, orError_error h⟩
  exact error_bind hconv fun _ => error_bind hconv fun _ => error_bind hconv fun _ =>
    error_bind hconv fun _ => error_bind hconv fun _ => fun failure h => (nomatch h)

/-- The validators are refused only if there are none, and never as duplicates. -/
theorem startSimplexEngine_refuses {reason : ValidatorConfigError}
    (h : startSimplexEngine order cfg = .error (.err (.invalidValidatorConfig reason))) :
    reason = .empty ∧ cfg.validators.keys = ∅ := by
  rw [startSimplexEngine_eq] at h
  cases hv : cfg.consensusConfig.validate with
  | error e =>
    obtain ⟨message, rfl⟩ := cfg.consensusConfig.validate_error e hv
    rw [hv] at h
    cases h
  | ok _ =>
    rw [hv] at h
    by_cases hempty : cfg.validators.keys = ∅
    · rw [if_pos hempty] at h
      cases h
      exact ⟨rfl, hempty⟩
    · rw [if_neg hempty] at h
      simp only at h
      split at h
      · have hok : ∀ (simplex : SimplexConfig) (failure : StartFailure),
            (.ok ⟨simplex, App.new cfg.validators cfg.metrics cfg.genesis⟩ :
              Except StartFailure StartedEngine) = .error failure →
            ∃ p, failure = .panic p := fun _ _ h => (nomatch h)
        obtain ⟨p, hpanic⟩ := error_bind (simplexConfig_error _) hok _ h
        cases hpanic
      · cases h

end Start

/-! ## Validated configurations -/

/-- The timeouts the engine is handed are positive and in order. -/
structure SimplexConfig.TimeoutsOrdered (s : SimplexConfig) : Prop where
  leader_pos : .ZERO < s.leaderTimeout
  leader_lt_certification : s.leaderTimeout < s.certificationTimeout
  certification_lt_skip : s.certificationTimeout < s.skipTimeout
  retry_lt_skip : s.timeoutRetry < s.skipTimeout
  certification_lt_stall : ∀ term, s.elector = some term → s.certificationTimeout < term.stallTimeout

/-- The start returns an engine, without a panic, with its timeouts in order and with
terms exactly if the configuration asks for them. -/
def StartsInOrder (order : KeyOrder) (cfg : EngineConfig) : Prop :=
  ∃ started, startSimplexEngine order cfg = .ok started ∧ started.simplex.TimeoutsOrdered ∧
    (started.simplex.elector.isSome ↔ 1 < cfg.consensusConfig.termLength)

/-- What `validate` checks is what the engine is handed. -/
theorem timeoutsOrdered_of_valid {cfg : EngineConfig} {participants : Finset PublicKey}
    {s : SimplexConfig} (hvalid : cfg.consensusConfig.Valid)
    (hs : Configures cfg participants s) : s.TimeoutsOrdered := by
  have hterm := electorTerm_eq cfg.consensusConfig
  refine ⟨?_, ?_, ?_, ?_, fun term hsome => ?_⟩
  · rw [hs.leaderTimeout]
    exact hvalid.leaderTimeout
  · rw [hs.leaderTimeout, hs.certificationTimeout]
    exact hvalid.leader_lt_certification
  · rw [hs.certificationTimeout, hs.skipTimeout]
    exact hvalid.certification_lt_skip
  · rw [hs.timeoutRetry, hs.skipTimeout]
    exact hvalid.retry_lt_skip
  · rw [hs.elector] at hsome
    rw [hs.certificationTimeout]
    split at hterm
    · next hlong =>
      obtain ⟨length, -, heq⟩ := hterm
      cases heq.symm.trans hsome
      exact hvalid.certification_lt_stall hlong
    · cases hterm.symm.trans hsome

/-- For every configuration that passes `validate` and has validators, whatever the order
of their keys: the engine starts exactly if the sizes that `validate` does not look at
are not zero, and the mailbox is below the bound of its channel. -/
theorem validated_start_iff (order : KeyOrder) (cfg : EngineConfig)
    (hvalid : cfg.consensusConfig.validate = .ok ()) (hvalidators : cfg.validators.keys ≠ ∅) :
    StartsInOrder order cfg ↔
      cfg.consensusConfig.mailboxSize < MAX_BUFFER ∧
        cfg.consensusConfig.pageCachePages ≠ 0 ∧ cfg.consensusConfig.pageCacheCapacity ≠ 0 ∧
        cfg.consensusConfig.replayBufferSize ≠ 0 ∧ cfg.consensusConfig.writeBufferSize ≠ 0 := by
  have hv : cfg.consensusConfig.Valid := ConsensusConfig.validate_eq_ok.mp hvalid
  constructor
  · rintro ⟨started, hstarted, -⟩
    obtain ⟨-, -, hmailbox, hs, -⟩ := startSimplexEngine_eq_ok.mp hstarted
    have hsizes := (simplexConfig_ok hs).1
    exact ⟨hmailbox, hsizes.pageCachePages, hsizes.pageCacheCapacity, hsizes.replayBufferSize,
      hsizes.writeBufferSize⟩
  · rintro ⟨hmailbox, hpages, hcapacity, hreplay, hwrite⟩
    obtain ⟨started, hstarted, hconf⟩ := startSimplexEngine_of_valid order hv hvalidators
      hmailbox ⟨hpages, hcapacity, hreplay, hwrite⟩
    have hterm := electorTerm_eq cfg.consensusConfig
    refine ⟨started, hstarted, timeoutsOrdered_of_valid hv hconf, ?_⟩
    rw [hconf.elector]
    split at hterm
    · next hlong =>
      obtain ⟨length, -, heq⟩ := hterm
      rw [heq]
      exact ⟨fun _ => hlong, fun _ => rfl⟩
    · next hshort =>
      rw [hterm]
      exact ⟨fun h => (nomatch h), fun h => absurd h hshort⟩

theorem default_sizesNonZero : SizesNonZero .default :=
  ⟨by decide, by decide, by decide, by decide⟩

/-- One validator with the given consensus parameters. -/
def sampleEngineConfig (cc : ConsensusConfig) : EngineConfig :=
  ⟨sampleKey, sampleValidators, cc, none, sampleGenesisInfo⟩

theorem sampleValidators_keys_ne : sampleValidators.keys ≠ ∅ :=
  Finset.ne_empty_of_mem (Finmap.mem_keys.mpr
    (ValidatorSet.mem_fromEntries.mpr (List.mem_singleton_self sampleKey)))

/-- Three validators on terms of four views, with timeouts and sizes of their own. The
second one starts. -/
def termedEngineConfig : EngineConfig where
  publicKey := .repeatByte 8
  validators := .fromEntries [⟨sampleKey, .v4 0 3000, .v4 0⟩, ⟨.repeatByte 8, .v4 0 3001, .v4 0⟩,
    ⟨.repeatByte 9, .v4 0 3002, .v4 0⟩]
  consensusConfig := { ConsensusConfig.default with
    mailboxSize := 64
    leaderTimeout := .fromSecs 1
    certificationTimeout := .fromSecs 3
    timeoutRetry := .fromSecs 2
    skipTimeout := .fromSecs 10
    termLength := 4
    stallTimeout := .fromSecs 6
    optimisticViews := 2
    replayBufferSize := 4096
    writeBufferSize := 512
    pageCachePages := 16
    pageCacheCapacity := 32 }
  metrics := some {}
  genesis := sampleGenesisInfo

/-- It starts. -/
theorem termed_validators_start :
    termedEngineConfig.consensusConfig.validate = .ok () ∧
      termedEngineConfig.validators.keys ≠ ∅ ∧ StartsInOrder .any termedEngineConfig := by
  have hvalidators : termedEngineConfig.validators.keys ≠ ∅ :=
    Finset.ne_empty_of_mem (Finmap.mem_keys.mpr
      (ValidatorSet.mem_fromEntries.mpr (List.mem_cons_self (a := sampleKey))))
  exact ⟨rfl, hvalidators, (validated_start_iff .any termedEngineConfig rfl hvalidators).mpr
    ⟨by decide, by decide, by decide, by decide, by decide⟩⟩

/-- The defaults with a write buffer of zero bytes pass `validate`, and the start panics. -/
theorem zero_write_buffer_panics :
    let cc := { ConsensusConfig.default with writeBufferSize := 0 }
    cc.validate = .ok () ∧ sampleValidators.keys ≠ ∅ ∧
      startSimplexEngine .any (sampleEngineConfig cc) = .error (.panic (.conversion .writeBufferSize)) ∧
      ¬ StartsInOrder .any (sampleEngineConfig cc) := by
  intro cc
  have hpanic : startSimplexEngine .any (sampleEngineConfig cc) =
      .error (.panic (.conversion .writeBufferSize)) := by
    rw [startSimplexEngine_eq]
    show (if sampleValidators.keys = ∅ then _ else _) = _
    rw [if_neg sampleValidators_keys_ne]
    rfl
  refine ⟨rfl, sampleValidators_keys_ne, hpanic, ?_⟩
  rintro ⟨started, hstarted, -⟩
  exact nomatch hpanic.symm.trans hstarted

end Allegro
