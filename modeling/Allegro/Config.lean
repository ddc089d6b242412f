import Mathlib.Algebra.Group.Nat.Defs
import Allegro.Lib.Fallible
import Allegro.Lib.Text

/-!
# The consensus configuration

`crates/consensus/src/config.rs`: `ConsensusConfig`, its defaults and `validate`,
with the errors of `crates/consensus/src/error.rs` that a start can return. `usize` is
that of a 64-bit target.

Results:
1. `ConsensusConfig.validate_eq_ok`: `validate` accepts exactly the configurations of
   `ConsensusConfig.Valid`. Four of the sizes are not in it.
2. `ConsensusConfig.default_valid`: the defaults are accepted.
-/

namespace Allegro

open Fallible (rejectIf rejectIf_eq_ok rejectIf_bind_eq_ok rejectIf_error error_bind)

/-! ## Durations -/

/-- `std::time::Duration`, in nanoseconds. The seconds are a `u64`. -/
structure Duration where
  nanos : Nat
  bound : nanos < UInt64.size * 10 ^ 9
deriving DecidableEq

namespace Duration

instance : LE Duration := ⟨fun a b => a.nanos ≤ b.nanos⟩

instance : LT Duration := ⟨fun a b => a.nanos < b.nanos⟩

instance (a b : Duration) : Decidable (a ≤ b) := inferInstanceAs (Decidable (a.nanos ≤ b.nanos))

instance (a b : Duration) : Decidable (a < b) := inferInstanceAs (Decidable (a.nanos < b.nanos))

theorem not_le {a b : Duration} : ¬ a ≤ b ↔ b < a := Nat.not_le

/-- `Duration::from_secs`. -/
def fromSecs (secs : UInt64) : Duration where
  nanos := secs.toNat * 10 ^ 9
  bound := Nat.mul_lt_mul_of_pos_right secs.toNat_lt (by decide)

/-- `Duration::ZERO`. -/
def ZERO : Duration := fromSecs 0

theorem pos_of_ne_zero {a : Duration} (h : a ≠ ZERO) : ZERO < a := by
  refine Nat.pos_of_ne_zero fun hzero => h ?_
  cases a with
  | mk nanos bound =>
    cases hzero
    rfl

/-- A number with the given count of decimals, without the zeros at the end. -/
def fixedPoint (decimals n : Nat) : String :=
  let digits := Nat.toDigits 10 (n % 10 ^ decimals)
  let padded := List.replicate (decimals - digits.length) '0' ++ digits
  let fraction := (padded.reverse.dropWhile (· = '0')).reverse
  Text.decimal (n / 10 ^ decimals) ++
    if fraction = [] then "" else "." ++ String.ofList fraction

/-- The `Debug` form: in the largest unit that leaves a whole part. -/
def debug (d : Duration) : String :=
  if 10 ^ 9 ≤ d.nanos then fixedPoint 9 d.nanos ++ "s"
  else if 10 ^ 6 ≤ d.nanos then fixedPoint 6 d.nanos ++ "ms"
  else if 10 ^ 3 ≤ d.nanos then fixedPoint 3 d.nanos ++ "µs"
  else Text.decimal d.nanos ++ "ns"

end Duration

/-! ## The configuration -/

/-- How the engine forwards block proposals to validators. -/
inductive ForwardingPolicy
  | silentVoters
  | all
deriving DecidableEq

structure ConsensusConfig where
  mailboxSize : UInt64
  leaderTimeout : Duration
  certificationTimeout : Duration
  timeoutRetry : Duration
  fetchTimeout : Duration
  viewRetention : UInt64
  skipTimeout : Duration
  termLength : UInt32
  stallTimeout : Duration
  optimisticViews : UInt64
  trackHistoricalVotes : Bool
  forwardingPolicy : ForwardingPolicy
  replayBufferSize : UInt64
  writeBufferSize : UInt64
  pageCachePages : UInt16
  pageCacheCapacity : UInt64
deriving DecidableEq

/-- Why a validator set is refused. -/
inductive ValidatorConfigError
  /-- "validator set is empty" -/
  | empty
  /-- "duplicate validators: …" -/
  | duplicates
deriving DecidableEq

/-- `ConsensusError` of this crate: the errors that a start can return. -/
inductive EngineError
  /-- "invalid validator configuration: …" -/
  | invalidValidatorConfig (reason : ValidatorConfigError)
  /-- "configuration error: …" -/
  | config (message : String)
deriving DecidableEq

namespace ConsensusConfig

/-- `ConsensusConfig::default`. -/
def default : ConsensusConfig where
  mailboxSize := 1024
  leaderTimeout := .fromSecs 2
  certificationTimeout := .fromSecs 4
  timeoutRetry := .fromSecs 1
  fetchTimeout := .fromSecs 2
  viewRetention := 10
  skipTimeout := .fromSecs 5
  termLength := 1
  stallTimeout := .fromSecs 8
  optimisticViews := 0
  trackHistoricalVotes := false
  forwardingPolicy := .silentVoters
  replayBufferSize := 8 * 1024 * 1024
  writeBufferSize := 1024 * 1024
  pageCachePages := 4096
  pageCacheCapacity := 8192

/-- The message for a timeout that does not exceed another. -/
def orderMessage (longer : String) (a : Duration) (shorter : String) (b : Duration) : String :=
  longer ++ " (" ++ a.debug ++ ") must exceed " ++ shorter ++ " (" ++ b.debug ++ ")"

/-- `ConsensusConfig::validate`. -/
def validate (cc : ConsensusConfig) : Except EngineError Unit := do
  rejectIf (cc.mailboxSize = 0) (.config "mailbox size must be greater than zero")
  rejectIf (cc.leaderTimeout = .ZERO) (.config "leader timeout must be greater than zero")
  rejectIf (cc.timeoutRetry = .ZERO) (.config "timeout retry must be greater than zero")
  rejectIf (cc.fetchTimeout = .ZERO) (.config "fetch timeout must be greater than zero")
  rejectIf (cc.viewRetention = 0) (.config "view retention must be greater than zero")
  rejectIf (cc.termLength = 0) (.config "term length must be at least 1")
  rejectIf (cc.certificationTimeout ≤ cc.leaderTimeout)
    (.config (orderMessage "certification timeout" cc.certificationTimeout
      "leader timeout" cc.leaderTimeout))
  rejectIf (cc.skipTimeout ≤ cc.certificationTimeout)
    (.config (orderMessage "skip timeout" cc.skipTimeout
      "certification timeout" cc.certificationTimeout))
  rejectIf (cc.skipTimeout ≤ cc.timeoutRetry)
    (.config (orderMessage "skip timeout" cc.skipTimeout "timeout retry" cc.timeoutRetry))
  -- only read when the elector hands out multi-view terms
  rejectIf (1 < cc.termLength ∧ cc.stallTimeout ≤ cc.certificationTimeout)
    (.config (orderMessage "stall timeout" cc.stallTimeout
      "certification timeout" cc.certificationTimeout))

/-- What a configuration that passes `validate` satisfies. -/
structure Valid (cc : ConsensusConfig) : Prop where
  mailboxSize : cc.mailboxSize ≠ 0
  leaderTimeout : .ZERO < cc.leaderTimeout
  timeoutRetry : .ZERO < cc.timeoutRetry
  fetchTimeout : .ZERO < cc.fetchTimeout
  viewRetention : cc.viewRetention ≠ 0
  termLength : cc.termLength ≠ 0
  leader_lt_certification : cc.leaderTimeout < cc.certificationTimeout
  certification_lt_skip : cc.certificationTimeout < cc.skipTimeout
  retry_lt_skip : cc.timeoutRetry < cc.skipTimeout
  certification_lt_stall : 1 < cc.termLength → cc.certificationTimeout < cc.stallTimeout

theorem validate_eq_ok {cc : ConsensusConfig} : cc.validate = .ok () ↔ cc.Valid := by
  unfold validate
  simp only [rejectIf_bind_eq_ok, rejectIf_eq_ok, Duration.not_le, not_and]
  constructor
  · rintro ⟨hmailbox, hleader, hretry, hfetch, hview, hterm, hlc, hcs, hrs, hstall⟩
    exact ⟨hmailbox, Duration.pos_of_ne_zero hleader, Duration.pos_of_ne_zero hretry,
      Duration.pos_of_ne_zero hfetch, hview, hterm, hlc, hcs, hrs, hstall⟩
  · intro h
    have hne : ∀ {a : Duration}, .ZERO < a → a ≠ .ZERO := by
      rintro a hpos rfl
      exact Nat.lt_irrefl _ hpos
    exact ⟨h.mailboxSize, hne h.leaderTimeout, hne h.timeoutRetry, hne h.fetchTimeout,
      h.viewRetention, h.termLength, h.leader_lt_certification, h.certification_lt_skip,
      h.retry_lt_skip, h.certification_lt_stall⟩

/-- Every error of `validate` is a configuration error. -/
theorem validate_error (cc : ConsensusConfig) :
    ∀ e, cc.validate = .error e → ∃ message, e = .config message := by
  have hcheck {p : Prop} [Decidable p] {message : String} :
      ∀ e, rejectIf p (.config message) = .error e → ∃ message, e = EngineError.config message :=
    fun e h => ⟨message, rejectIf_error h⟩
  exact error_bind hcheck fun _ => error_bind hcheck fun _ => error_bind hcheck fun _ =>
    error_bind hcheck fun _ => error_bind hcheck fun _ => error_bind hcheck fun _ =>
    error_bind hcheck fun _ => error_bind hcheck fun _ => error_bind hcheck fun _ => hcheck

theorem default_valid : default.Valid := validate_eq_ok.mp rfl

/-- A skip timeout of 5 ms is refused, with the two durations in the message. -/
example :
    { default with skipTimeout := ⟨5000000, by decide⟩ }.validate =
      .error (.config "skip timeout (5ms) must exceed certification timeout (4s)") := by
  decide

end ConsensusConfig

end Allegro
