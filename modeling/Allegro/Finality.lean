import Allegro.Tracker
import Allegro.Lib.Accounting
import Allegro.Lib.Server

/-!
# What becomes of a finalization

A finalization certificate passes three hands: the reporter forwards its digest
or drops it, the channel keeps it, and the finalizer settles it. It settles a
digest by finding no record, or with the answer to the forkchoice update that it
submits. The finalizer is the server of a queue of digests.

Results:
1. `entries_step`: what a step says in the log of the report, of the digest taken and of
   the update answered.
2. `settles_step`: each step moves a digest from one hand to the next.
3. `finalizations_accounted`: in every run the reports are those forwarded and
   those dropped; what was forwarded is settled once and in its order, or at the
   finalizer, or in the channel; and the tracker is that of the last update that
   was answered VALID.
4. `forwarded_finalizations_settled`: two rounds for each digest that waits are
   enough to settle them all, however many more reports come in.
-/

namespace Allegro

open Run Node

/-! ## Reading the log -/

namespace Output

/-- The report that the reporter dealt with. -/
def report : Output → Option Digest
  | .forwarded d => some d
  | .dropped d => some d
  | _ => none

/-- The report that went into the channel. -/
def accepted : Output → Option Digest
  | .forwarded d => some d
  | _ => none

/-- The report that did not. -/
def refused : Output → Option Digest
  | .dropped d => some d
  | _ => none

/-- The digest that the finalizer is done with. -/
def settled : Output → Option Digest
  | .notFound d => some d
  | .finalized d _ _ => some d
  | .finalizeFailed d _ => some d
  | _ => none

/-- A forkchoice update of the finalizer. -/
def submitted : Output → Option (Digest × ForkchoiceState)
  | .finalizeFcu d state => some (d, state)
  | _ => none

end Output

section Definitions

variable {ρ : Type}

/-- The steps by which the finalizer settles a digest. -/
inductive FinalizerTask
  | recv
  | answer
deriving DecidableEq

def Node.Event.finalizerTask : Node.Event ρ → Option FinalizerTask
  | .finalizerRecv => some .recv
  | .finalizerAnswer _ => some .answer
  | _ => none

def FinalizerStage.needs : FinalizerStage → FinalizerTask
  | .idle => .recv
  | .submitting _ _ _ => .answer

def FinalizerStage.effort : FinalizerStage → Nat
  | .idle => 2
  | .submitting _ _ _ => 1

/-- The digests that were forwarded and are not settled, oldest first. -/
def Node.unsettled (n : Node) : List Digest := n.finalizer.digest ++ n.sink.items

/-- The digest that an event loses: a finalization that is reported while the channel
is full. -/
def Node.drops (n : Node) : Node.Event ρ → List Digest
  | .report activity =>
    match activity.finalized with
    | some d => if n.sink.items.length < n.sink.cap then [] else [d]
    | none => []
  | _ => []

/-- The digest that an event takes from the channel. -/
def Node.takes (n : Node) : Node.Event ρ → List Digest
  | .finalizerRecv =>
    match n.finalizer with
    | .idle => n.sink.items.head?.toList
    | .submitting _ _ _ => []
  | _ => []

/-- The finalization of a digest that is taken and recorded: the block of its record. -/
def Node.submits (n : Node) (e : Node.Event ρ) : List Finalization :=
  (n.takes e).filterMap fun d => (n.info d).map fun i => ⟨d, i.hash, i.number⟩

/-- The digest that is taken and not recorded. -/
def Node.skips (n : Node) (e : Node.Event ρ) : List Digest :=
  (n.takes e).filter fun d => (n.info d).isNone

/-- The finalization whose forkchoice update the finalizer waits on. -/
def FinalizerStage.finalization : FinalizerStage → List Finalization
  | .idle => []
  | .submitting d hash number => [⟨d, hash, number⟩]

/-- The finalization whose forkchoice update an event answers. -/
def Node.returns (n : Node) : Node.Event ρ → List Finalization
  | .finalizerAnswer _ => n.finalizer.finalization
  | _ => []

/-- The digest that the finalizer is done with after its answer. -/
def Node.closes (n : Node) : Node.Event ρ → List Digest
  | .finalizerAnswer _ => n.finalizer.digest
  | _ => []

/-- The forkchoice update of a finalization: head, safe and finalized are its block. -/
def Finalization.update (f : Finalization) : Digest × ForkchoiceState :=
  (f.digest, finalizeForkchoice f.hash)

/-- The finalizer waits for the answer to the last forkchoice update that it submitted. -/
def Node.AwaitsLast (n : Node) : Prop :=
  ∀ f ∈ n.finalizer.finalization,
    (n.log.filterMap Output.submitted).getLast? = some f.update

end Definitions

namespace FinalityLemmas

variable {ρ : Type} {B : PayloadBuilder ρ} {n : Node} {e : Node.Event ρ}

/-! ## What a step says -/

theorem entry {n' : Node} {o : Output} (hlog : n'.log = n.log ++ [o]) {γ : Type}
    (f : Output → Option γ) : n'.log.filterMap f = n.log.filterMap f ++ (f o).toList := by
  rw [hlog, List.filterMap_append]
  cases h : f o with
  | none => rw [List.filterMap_cons_none h]; rfl
  | some c => rw [List.filterMap_cons_some h]; rfl

theorem no_entry {n' : Node} (hlog : n'.log = n.log) {γ : Type} (f : Output → Option γ) :
    n'.log.filterMap f = n.log.filterMap f ++ [] := by
  rw [hlog, List.append_nil]

theorem takes_of_quiet (hq : n.Quiet e) : n.takes e = [] := by
  cases e with
  | finalizerRecv =>
    cases hstage : n.finalizer with
    | idle =>
      simp only [takes, hstage]
      cases hitems : n.sink.items with
      | nil => rfl
      | cons d rest =>
        obtain ⟨q, hnext⟩ := Fifo.next_of_head (q := n.sink) (a := d) (by rw [hitems]; rfl)
        cases (hq.recv rfl hstage).symm.trans hnext
    | submitting d hash number => simp only [takes, hstage]
  | _ => rfl

theorem closes_of_quiet (hq : n.Quiet e) : n.closes e = [] := by
  cases e with
  | finalizerAnswer result => simp only [closes, hq.answer result rfl, FinalizerStage.digest]
  | _ => rfl

theorem returns_of_quiet (hq : n.Quiet e) : n.returns e = [] := by
  cases e with
  | finalizerAnswer result =>
    simp only [returns, hq.answer result rfl, FinalizerStage.finalization]
  | _ => rfl

theorem drops_of_quiet (hq : n.Quiet e) : n.drops e = [] := by
  cases e with
  | report activity => simp only [drops, hq.report activity rfl]
  | _ => rfl

/-- A digest at the head of the channel, with an idle finalizer. -/
theorem takes_next {d : Digest} {q : Fifo Digest} (hidle : n.finalizer = .idle)
    (hnext : n.sink.next = some (d, q)) : n.takes (.finalizerRecv : Node.Event ρ) = [d] := by
  simp only [takes, hidle, (Fifo.next_eq_some hnext).1]
  rfl

/-- The log says what a step forwards, drops, submits and settles. -/
structure Entries (n : Node) (e : Node.Event ρ) (n' : Node) : Prop where
  accepted : n'.log.filterMap Output.accepted = n.log.filterMap Output.accepted ++ n.accepts e
  refused : n'.log.filterMap Output.refused = n.log.filterMap Output.refused ++ n.drops e
  submitted : n'.log.filterMap Output.submitted =
    n.log.filterMap Output.submitted ++ (n.submits e).map Finalization.update
  settled : n'.log.filterMap Output.settled =
    n.log.filterMap Output.settled ++ (n.skips e ++ n.closes e)

theorem entries_step (hl : n.Healthy) (e : Node.Event ρ) : Entries n e (n.step B e) := by
  cases moves_step (B := B) n e with
  | quiet hq _ _ _ hlog =>
    refine ⟨?_, ?_, ?_, ?_⟩
    · rw [TrackerLemmas.accepts_of_not_finalized hq.report]
      exact no_entry hlog _
    · rw [drops_of_quiet hq]
      exact no_entry hlog _
    · rw [submits, takes_of_quiet hq]
      exact no_entry hlog _
    · rw [skips, takes_of_quiet hq, closes_of_quiet hq]
      exact no_entry hlog _
  | buildFcu _ _ _ _ _ hlog => exact ⟨entry hlog _, entry hlog _, entry hlog _, entry hlog _⟩
  | @forwarded _ activity d q ha htry _ _ _ hlog =>
    obtain ⟨hlt, -, -⟩ := Fifo.trySend_eq_some htry
    refine ⟨?_, ?_, entry hlog _, entry hlog _⟩
    · simp only [accepts, ha, if_pos hlt]
      exact entry hlog _
    · simp only [drops, ha, if_pos hlt]
      exact entry hlog _
  | @dropped _ activity d ha htry _ _ _ hlog =>
    have hfull := Nat.not_lt.mpr (Fifo.trySend_eq_none.mp htry)
    refine ⟨?_, ?_, entry hlog _, entry hlog _⟩
    · simp only [accepts, ha, if_neg hfull]
      exact entry hlog _
    · simp only [drops, ha, if_neg hfull]
      exact entry hlog _
  | poisoned _ _ hp _ _ _ _ =>
    rw [hl.blockInfo] at hp
    cases hp
  | @notFound _ d q hidle hnext hnone _ _ _ hlog =>
    refine ⟨entry hlog _, entry hlog _, ?_, ?_⟩
    · rw [submits, takes_next hidle hnext, List.filterMap_cons_none (by rw [hnone]; rfl)]
      exact entry hlog _
    · rw [skips, takes_next hidle hnext, List.filter_cons_of_pos (by rw [hnone]; rfl)]
      exact entry hlog _
  | @submitted _ d q info hidle hnext hinfo _ _ _ hlog =>
    refine ⟨entry hlog _, entry hlog _, ?_, ?_⟩
    · rw [submits, takes_next hidle hnext, List.filterMap_cons_some (by rw [hinfo]; rfl)]
      exact entry hlog _
    · rw [skips, takes_next hidle hnext, List.filter_cons_of_neg (by rw [hinfo]; exact Bool.false_ne_true)]
      exact entry hlog _
  | finalized hsub _ _ _ _ hlog | failed hsub _ _ _ _ hlog =>
    refine ⟨entry hlog _, entry hlog _, entry hlog _, ?_⟩
    rw [closes, hsub]
    exact entry hlog _

theorem awaitsLast_step (h : n.AwaitsLast) (e : Node.Event ρ) : (n.step B e).AwaitsLast := by
  have hsame : (n.step B e).finalizer = n.finalizer →
      (n.step B e).log.filterMap Output.submitted = n.log.filterMap Output.submitted ++ [] →
      (n.step B e).AwaitsLast := by
    intro hf hlog f hmem
    rw [hf] at hmem
    rw [hlog, List.append_nil]
    exact h f hmem
  have hidle : (n.step B e).finalizer = .idle → (n.step B e).AwaitsLast := by
    intro hf f hmem
    rw [hf] at hmem
    exact absurd hmem List.not_mem_nil
  cases moves_step (B := B) n e with
  | quiet _ _ _ hf hlog => exact hsame hf (no_entry hlog _)
  | buildFcu _ _ _ _ hf hlog | forwarded _ _ _ _ hf hlog | dropped _ _ _ _ hf hlog =>
    exact hsame hf (entry hlog _)
  | poisoned _ _ _ _ _ hf _ | notFound _ _ _ _ _ hf _ | finalized _ _ _ _ hf _
  | failed _ _ _ _ hf _ => exact hidle hf
  | submitted _ _ _ _ _ hf hlog =>
    intro f hmem
    rw [hf] at hmem
    cases List.mem_singleton.mp hmem
    rw [entry hlog]
    exact List.getLast?_concat

/-! ## The finalizer as a server -/

/-- A digest at the head of the channel, with an idle finalizer. -/
theorem unsettled_next {d : Digest} {q : Fifo Digest} (hidle : n.finalizer = .idle)
    (hnext : n.sink.next = some (d, q)) : n.unsettled = d :: q.items := by
  rw [unsettled, hidle, (Fifo.next_eq_some hnext).1]
  rfl

/-- What a step settles it takes from the front of what was forwarded, and what it
forwards goes to the back. -/
theorem settles_step (hl : n.Healthy) (e : Node.Event ρ) :
    n.unsettled ++ n.accepts e = n.skips e ++ n.closes e ++ (n.step B e).unsettled := by
  cases moves_step (B := B) n e with
  | quiet hq _ hs hf _ =>
    rw [TrackerLemmas.accepts_of_not_finalized hq.report, skips, takes_of_quiet hq,
      closes_of_quiet hq, unsettled, unsettled, hs, hf, List.append_nil]
    rfl
  | buildFcu _ _ _ hs hf _ =>
    rw [unsettled, unsettled, hs, hf]
    exact List.append_nil _
  | @forwarded _ activity d q ha htry _ hs hf _ =>
    obtain ⟨hlt, hitems, -⟩ := Fifo.trySend_eq_some htry
    simp only [accepts, ha, if_pos hlt]
    rw [unsettled, unsettled, hf, hs, hitems, List.append_assoc]
    rfl
  | @dropped _ activity d ha htry _ hs hf _ =>
    have hfull := Nat.not_lt.mpr (Fifo.trySend_eq_none.mp htry)
    simp only [accepts, ha, if_neg hfull]
    rw [unsettled, unsettled, hs, hf]
    exact List.append_nil _
  | poisoned _ _ hp _ _ _ _ =>
    rw [hl.blockInfo] at hp
    cases hp
  | @notFound _ d q hidle hnext hnone _ hs hf _ =>
    rw [skips, takes_next hidle hnext, List.filter_cons_of_pos (by rw [hnone]; rfl),
      unsettled_next hidle hnext, unsettled, hs, hf]
    exact List.append_nil _
  | @submitted _ d q info hidle hnext hinfo _ hs hf _ =>
    rw [skips, takes_next hidle hnext, List.filter_cons_of_neg (by rw [hinfo]; exact Bool.false_ne_true),
      unsettled_next hidle hnext, unsettled, hs, hf]
    exact List.append_nil _
  | finalized hsub _ _ hs hf _ | failed hsub _ _ hs hf _ =>
    rw [closes, unsettled, unsettled, hsub, hs, hf]
    exact List.append_nil _

theorem effort_bounds (stage : FinalizerStage) : 0 < stage.effort ∧ stage.effort ≤ 2 := by
  cases stage with
  | idle => exact ⟨Nat.two_pos, le_refl 2⟩
  | submitting d hash number => exact ⟨Nat.one_pos, Nat.le_succ 1⟩

/-- A quiet step was not the one that the finalizer needs, as long as it has something
to do. -/
theorem task_of_quiet (hw : n.unsettled ≠ []) (hq : n.Quiet e) :
    e.finalizerTask ≠ some n.finalizer.needs := by
  intro htask
  cases e with
  | finalizerRecv =>
    cases hstage : n.finalizer with
    | idle =>
      rw [unsettled, hstage] at hw
      have hne : n.sink.items ≠ [] := hw
      obtain ⟨d, rest, hitems⟩ := List.exists_cons_of_ne_nil hne
      obtain ⟨q, hnext⟩ := Fifo.next_of_head (q := n.sink) (a := d) (by rw [hitems]; rfl)
      cases (hq.recv rfl hstage).symm.trans hnext
    | submitting d hash number =>
      rw [hstage] at htask
      cases htask
  | finalizerAnswer result =>
    rw [hq.answer result rfl] at htask
    cases htask
  | _ => cases htask

/-- The step settles a digest, or brings it to the execution layer, or leaves the
finalizer where it is. -/
theorem forward_step (hl : n.Healthy) (e : Node.Event ρ) (hw : n.unsettled ≠ []) :
    (n.step B e).unsettled.length < n.unsettled.length + (n.accepts e).length ∨
      (n.step B e).finalizer.effort < n.finalizer.effort ∨
      ((n.step B e).finalizer.effort = n.finalizer.effort ∧
        (n.step B e).finalizer.needs = n.finalizer.needs ∧
        e.finalizerTask ≠ some n.finalizer.needs) := by
  have hstill : (n.step B e).finalizer = n.finalizer → e.finalizerTask = none →
      (n.step B e).finalizer.effort = n.finalizer.effort ∧
        (n.step B e).finalizer.needs = n.finalizer.needs ∧
        e.finalizerTask ≠ some n.finalizer.needs := by
    intro hf htask
    rw [hf, htask]
    exact ⟨rfl, rfl, nofun⟩
  cases moves_step (B := B) n e with
  | quiet hq _ _ hf _ =>
    exact .inr (.inr ⟨by rw [hf], by rw [hf], task_of_quiet hw hq⟩)
  | buildFcu _ _ _ _ hf _ | forwarded _ _ _ _ hf _ | dropped _ _ _ _ hf _ =>
    exact .inr (.inr (hstill hf rfl))
  | poisoned _ _ hp _ _ _ _ =>
    rw [hl.blockInfo] at hp
    cases hp
  | notFound hidle hnext _ _ hs hf _ =>
    refine .inl ?_
    rw [unsettled_next hidle hnext, unsettled, hs, hf]
    exact Nat.lt_succ_self _
  | submitted hidle _ _ _ _ hf _ =>
    refine .inr (.inl ?_)
    rw [hf, hidle]
    exact Nat.lt_succ_self 1
  | finalized hm _ _ hs hf _ | failed hm _ _ hs hf _ =>
    refine .inl ?_
    rw [unsettled, unsettled, hs, hf, hm]
    exact Nat.lt_succ_self _

/-- The finalizer at its channel. -/
def finalizerWorker (B : PayloadBuilder ρ) :
    Worker (Node.step B) Digest Digest FinalizerTask where
  good := fun n => n.Healthy
  waiting := Node.unsettled
  arrives := Node.accepts
  receipts := fun n => n.log.filterMap Output.settled
  receipt := some
  good_step := fun e h => Node.healthy_step e h
  law := fun {n} e h => ⟨n.skips e ++ n.closes e, settles_step h e, by
    rw [(entries_step h e).settled, List.filterMap_some]⟩
  kind := Node.Event.finalizerTask
  needs := fun n => n.finalizer.needs
  effort := fun n => n.finalizer.effort
  cap := 2
  effort_bounds := fun {n} _ _ => effort_bounds n.finalizer
  progress := fun e h hw => forward_step h e hw

/-! ## The books of a run -/

variable {start : Node} {es : List (Node.Event ρ)}

/-- What a step says of each kind in the log, a run says of it. -/
theorem entries_run {γ : Type} (f : Output → Option γ) {out : Node → Node.Event ρ → List γ}
    (hstep : ∀ n e, n.Healthy →
      (n.step B e).log.filterMap f = n.log.filterMap f ++ out n e)
    (hl : start.Healthy) (hlog : start.log = []) (es : List (Node.Event ρ)) :
    (run (Node.step B) start es).log.filterMap f = trace (Node.step B) out start es := by
  induction es using List.reverseRecOn with
  | nil => rw [show (run (Node.step B) start []).log = [] from hlog]; rfl
  | append_singleton es e ih =>
    have hrun : (run (Node.step B) start es).Healthy :=
      run_invariant (P := fun n : Node => n.Healthy) (fun _ e hn => healthy_step e hn) hl es
    rw [run_concat, hstep _ e hrun, ih, trace_concat]

/-- What is forwarded is settled, in its order, or is not settled. -/
theorem forwarded_run (validators : ValidatorSet) (metrics : Option ConsensusMetrics)
    (g : GenesisInfo) (senders : Nat) (es : List (Node.Event ρ)) :
    trace (Node.step B) Node.accepts (Node.new validators metrics g senders) es =
      trace (Node.step B) (fun n e => n.skips e ++ n.closes e)
          (Node.new validators metrics g senders) es ++
        (run (Node.step B) (Node.new validators metrics g senders) es).unsettled := by
  have hl : (Node.new validators metrics g senders).Healthy := App.healthy_new validators metrics g
  exact trace_conserved Node.unsettled
    (fun (n : Node) e (h : n.Healthy) => healthy_step (B := B) e h)
    (fun _ e h => settles_step h e) hl es

/-- Each report of a finalization is forwarded or dropped. -/
theorem reports_run (hl : start.Healthy) (hlog : start.log = []) (es : List (Node.Event ρ)) :
    (run (Node.step B) start es).log.filterMap Output.report = reported es := by
  induction es using List.reverseRecOn with
  | nil => rw [show (run (Node.step B) start []).log = [] from hlog]; rfl
  | append_singleton es e ih =>
    have hrun : (run (Node.step B) start es).Healthy :=
      run_invariant (P := fun n : Node => n.Healthy) (fun _ e hn => healthy_step e hn) hl es
    have hother : (∀ activity, e ≠ .report activity) →
        reported (es ++ [e]) = reported es ++ [] := by
      intro hne
      rw [reported_concat_of_not_finalized fun activity he => absurd he (hne activity)]
      exact (List.append_nil _).symm
    rw [run_concat]
    cases moves_step (B := B) (run (Node.step B) start es) e with
    | quiet hq _ _ _ hlog => rw [hlog, ih, reported_concat_of_not_finalized hq.report]
    | forwarded ha _ _ _ _ hlog | dropped ha _ _ _ _ hlog =>
      rw [entry hlog, ih, reported_concat_of_finalized ha]
      rfl
    | poisoned _ _ hp _ _ _ _ =>
      rw [hrun.blockInfo] at hp
      cases hp
    | buildFcu _ _ _ _ _ hlog | notFound _ _ _ _ _ _ hlog | submitted _ _ _ _ _ _ hlog
    | finalized _ _ _ _ _ hlog | failed _ _ _ _ _ hlog =>
      rw [entry hlog, ih, hother (by rintro _ ⟨⟩)]
      rfl

/-- What was submitted was answered, or the finalizer waits for the answer. -/
theorem submits_step (hl : n.Healthy) (e : Node.Event ρ) :
    n.finalizer.finalization ++ n.submits e =
      n.returns e ++ (n.step B e).finalizer.finalization := by
  cases moves_step (B := B) n e with
  | quiet hq _ _ hf _ =>
    rw [submits, takes_of_quiet hq, returns_of_quiet hq, hf]
    exact List.append_nil _
  | buildFcu _ _ _ _ hf _ | forwarded _ _ _ _ hf _ | dropped _ _ _ _ hf _ =>
    rw [hf]
    exact List.append_nil _
  | poisoned _ _ hp _ _ _ _ =>
    rw [hl.blockInfo] at hp
    cases hp
  | notFound hidle hnext hnone _ _ hf _ =>
    rw [submits, takes_next hidle hnext, List.filterMap_cons_none (by rw [hnone]; rfl), hidle, hf]
    rfl
  | submitted hidle hnext hinfo _ _ hf _ =>
    rw [submits, takes_next hidle hnext, List.filterMap_cons_some (by rw [hinfo]; rfl), hidle, hf]
    rfl
  | finalized hsub _ _ _ hf _ | failed hsub _ _ _ hf _ =>
    rw [returns, hsub, hf]
    rfl

/-- What is confirmed is answered. -/
theorem confirms_sublist (n : Node) (e : Node.Event ρ) : (n.confirms e).Sublist (n.returns e) := by
  rcases List.eq_nil_or_concat (n.confirms e) with hnil | ⟨before, f, hf⟩
  · rw [hnil]
    exact List.nil_sublist _
  · obtain ⟨fcu, rfl, -, hsub⟩ := mem_confirms (n := n) (e := e) (f := f) |>.mp (by rw [hf]; simp)
    simp only [confirms, returns, hsub, FinalizerStage.finalization]
    split
    · exact List.Sublist.refl _
    · exact List.nil_sublist _

/-- The tracker holds what was confirmed last. -/
theorem tracker_run (n : Node) (es : List (Node.Event ρ)) :
    (run (Node.step B) n es).tracker.finalized =
      ((trace (Node.step B) Node.confirms n es).getLast?.map Finalization.anchor).getD
        n.tracker.finalized := by
  induction es using List.reverseRecOn with
  | nil => rfl
  | append_singleton es e ih =>
    rw [run_concat, trace_concat]
    rcases confirms_step (B := B) (run (Node.step B) n es) e with ⟨hnone, ht⟩ | ⟨f, hone, ht⟩
    · rw [ht, ih, hnone, List.append_nil]
    · rw [ht, hone, List.getLast?_concat]
      rfl

end FinalityLemmas

open FinalityLemmas

/-- The books of the finality pipeline after the events `es`. -/
structure Ledger {ρ : Type} (B : PayloadBuilder ρ) (start : Node) (es : List (Node.Event ρ)) :
    Prop where
  /-- Each report was forwarded or dropped, -/
  reports : (run (Node.step B) start es).log.filterMap Output.report = reported es
  /-- forwarded if the channel had room, -/
  accepted : (run (Node.step B) start es).log.filterMap Output.accepted =
    trace (Node.step B) Node.accepts start es
  /-- and dropped if it was full. -/
  refused : (run (Node.step B) start es).log.filterMap Output.refused =
    trace (Node.step B) Node.drops start es
  /-- Of those forwarded some are settled, in their order. -/
  forwarded : trace (Node.step B) Node.accepts start es =
    trace (Node.step B) (fun n e => n.skips e ++ n.closes e) start es ++
      (run (Node.step B) start es).unsettled
  /-- For each digest that was taken with a record the update to its block is submitted, -/
  submitted : (run (Node.step B) start es).log.filterMap Output.submitted =
    trace (Node.step B) (fun n e => (n.submits e).map Finalization.update) start es
  /-- and all are answered, but for one that the finalizer waits on. -/
  answered : trace (Node.step B) Node.submits start es =
    trace (Node.step B) Node.returns start es ++
      (run (Node.step B) start es).finalizer.finalization
  /-- Some of them are answered VALID, -/
  confirmed : (trace (Node.step B) Node.confirms start es).Sublist
    (trace (Node.step B) Node.returns start es)
  /-- and the tracker holds the block of the last of these. -/
  tracker : (run (Node.step B) start es).tracker.finalized =
    ((trace (Node.step B) Node.confirms start es).getLast?.map Finalization.anchor).getD
      start.tracker.finalized

/-- In every run of a node, with any payload builder and whatever the execution
layer answers, every finalization is accounted for. -/
theorem finalizations_accounted {ρ : Type} (B : PayloadBuilder ρ) (validators : ValidatorSet)
    (metrics : Option ConsensusMetrics) (g : GenesisInfo) (senders : Nat)
    (es : List (Node.Event ρ)) : Ledger B (Node.new validators metrics g senders) es := by
  have hl : (Node.new validators metrics g senders).Healthy := App.healthy_new validators metrics g
  exact {
    reports := reports_run hl rfl es
    accepted := entries_run _ (fun _ e h => (entries_step h e).accepted) hl rfl es
    refused := entries_run _ (fun _ e h => (entries_step h e).refused) hl rfl es
    forwarded := forwarded_run validators metrics g senders es
    submitted := entries_run _ (fun _ e h => (entries_step h e).submitted) hl rfl es
    answered := trace_conserved (fun n : Node => n.finalizer.finalization)
      (fun (n : Node) e (h : n.Healthy) => healthy_step (B := B) e h)
      (fun _ e h => submits_step h e) hl es
    confirmed := trace_sublist confirms_sublist _ es
    tracker := tracker_run _ es
  }

/-- However a run goes on: a schedule with two rounds for each digest that was
forwarded and is not settled settles all the digests forwarded so far, in their
order. A round has a step of each of the finalizer's tasks. -/
theorem forwarded_finalizations_settled {ρ : Type} (B : PayloadBuilder ρ)
    (validators : ValidatorSet) (metrics : Option ConsensusMetrics) (g : GenesisInfo)
    (senders : Nat) (es es' : List (Node.Event ρ)) (k : Nat)
    (hk : 2 * (run (Node.step B) (Node.new validators metrics g senders) es).unsettled.length ≤ k)
    (hrounds : Rounds Node.Event.finalizerTask k es') :
    (run (Node.step B) (Node.new validators metrics g senders) es).log.filterMap Output.accepted <+:
      (run (Node.step B) (Node.new validators metrics g senders) (es ++ es')).log.filterMap
        Output.settled := by
  have hl := healthy_run (B := B) validators metrics g senders es
  have hpre : _ ++ List.filterMap some
      (run (Node.step B) (Node.new validators metrics g senders) es).unsettled <+: _ :=
    Worker.receipts_after_rounds (w := finalizerWorker B) hl hk hrounds
  rw [← run_append, List.filterMap_some] at hpre
  have hstart : (Node.new validators metrics g senders).Healthy :=
    App.healthy_new validators metrics g
  have haccepted := entries_run Output.accepted (B := B)
    (fun _ e h => (entries_step h e).accepted) hstart rfl es
  have hsettled := entries_run Output.settled (B := B)
    (fun _ e h => (entries_step h e).settled) hstart rfl es
  rw [haccepted, forwarded_run validators metrics g senders es, ← hsettled]
  exact hpre

/-- Two finalizations are reported, and the first is taken from the channel. -/
def reportedTwice : List (Node.Event (Reth sampleAlloy)) :=
  [.report (.finalization SampleHeader.one.digest),
    .report (.finalization SampleHeader.two.digest), .finalizerRecv]

theorem forwardOne_tasks : ∀ task, ∃ e ∈ forwardOne, e.finalizerTask = some task
  | .recv => ⟨.finalizerRecv, List.mem_cons_self, rfl⟩
  | .answer => ⟨_, List.mem_cons_of_mem _ List.mem_cons_self, rfl⟩

theorem two_finalizations_settled :
    [SampleHeader.one.digest, SampleHeader.two.digest] <+:
      (run (Node.step (createEnginePayloadBuilder sampleAlloy))
        (Node.new sampleValidators none sampleGenesisInfo 1)
        (reportedTwice ++ (List.replicate 2 forwardOne).flatten)).log.filterMap Output.settled :=
  forwarded_finalizations_settled (createEnginePayloadBuilder sampleAlloy)
    sampleValidators none sampleGenesisInfo 1 reportedTwice _ 2 (by decide)
    (rounds_replicate forwardOne_tasks 2)

end Allegro
