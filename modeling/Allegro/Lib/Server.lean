import Allegro.Lib.Run

/-!
# Servers that work through a queue

A server finishes the jobs that arrive in their order. A step of the system may
bring in new jobs and may finish jobs from the front of the queue, and a job may
need several steps, of different kinds.

* `Server`: the jobs that wait, oldest first, and the receipts handed out so
  far. Not every job gets a receipt.
* `Worker`: a server that also says which kind of step its front job needs next,
  and how many such steps it still needs.
* `Rounds`: a schedule that can be cut into rounds, each with a step of every
  kind. The order within a round is free, and so is what else happens in it.

Results:
1. `Server.account`: what arrived is what was finished, then what waits, and the
   receipts are those of the jobs that were finished.
2. `Worker.receipts_after_rounds`: `cap` rounds for each job that waits are enough
   to finish them all, whatever arrives in the meantime.
-/

namespace Run

/-! ## Servers -/

/-- A system seen as a queue of jobs `α` with receipts `β`. The law holds in the
states of an invariant. -/
structure Server {σ ε : Type*} (step : σ → ε → σ) (α β : Type*) where
  good : σ → Prop
  waiting : σ → List α
  arrives : σ → ε → List α
  receipts : σ → List β
  receipt : α → Option β
  good_step : ∀ {s} e, good s → good (step s e)
  law : ∀ {s} e, good s → ∃ done, waiting s ++ arrives s e = done ++ waiting (step s e) ∧
    receipts (step s e) = receipts s ++ done.filterMap receipt

namespace Server

variable {σ ε α β : Type*} {step : σ → ε → σ} (v : Server step α β)

theorem good_run {s : σ} (h : v.good s) (es : List ε) : v.good (run step s es) :=
  run_invariant (P := v.good) (fun _ e hs => v.good_step e hs) h es

/-- What waits and what arrives is finished, in this order, or waits in the end. -/
theorem account {s : σ} (h : v.good s) (es : List ε) :
    ∃ done, v.waiting s ++ trace step v.arrives s es = done ++ v.waiting (run step s es) ∧
      v.receipts (run step s es) = v.receipts s ++ done.filterMap v.receipt := by
  induction es generalizing s with
  | nil => exact ⟨[], List.append_nil _, (List.append_nil _).symm⟩
  | cons e es ih =>
    obtain ⟨now, hnow, hrnow⟩ := v.law e h
    obtain ⟨rest, hrest, hrrest⟩ := ih (v.good_step e h)
    refine ⟨now ++ rest, ?_, ?_⟩
    · rw [trace, ← List.append_assoc, hnow, List.append_assoc, hrest, List.append_assoc, run_cons]
    · rw [run_cons, hrrest, hrnow, List.filterMap_append, List.append_assoc]

/-- A step adds at most what arrives. -/
theorem waiting_length_le {s : σ} (h : v.good s) (e : ε) :
    (v.waiting (step s e)).length ≤ (v.waiting s).length + (v.arrives s e).length := by
  obtain ⟨done, hdone, -⟩ := v.law e h
  rw [← List.length_append, hdone, List.length_append]
  exact Nat.le_add_left _ _

/-- Where no more waits than has arrived since `s`, what waited at `s` is finished. -/
theorem prefix_of_length_le {s : σ} {es : List ε} {done : List α}
    (hdone : v.waiting s ++ trace step v.arrives s es = done ++ v.waiting (run step s es))
    (hlen : (v.waiting (run step s es)).length ≤ (trace step v.arrives s es).length) :
    v.waiting s <+: done := by
  refine @List.prefix_of_prefix_length_le _ _ _ (done ++ v.waiting (run step s es)) ⟨_, hdone⟩
    (List.prefix_append _ _) ?_
  have hsum := congrArg List.length hdone
  rw [List.length_append, List.length_append] at hsum
  exact Nat.le_of_add_le_add_right (hsum.trans_le (Nat.add_le_add_left hlen _))

end Server

/-! ## Schedules -/

/-- The schedule has `k` rounds with a step of every kind. -/
inductive Rounds {ε κ : Type*} (kind : ε → Option κ) : Nat → List ε → Prop
  | zero (es : List ε) : Rounds kind 0 es
  | succ {k : Nat} {es₁ es₂ : List ε} :
      (∀ c, ∃ e ∈ es₁, kind e = some c) → Rounds kind k es₂ → Rounds kind (k + 1) (es₁ ++ es₂)

theorem rounds_replicate {ε κ : Type*} {kind : ε → Option κ} {round : List ε}
    (h : ∀ c, ∃ e ∈ round, kind e = some c) (k : Nat) :
    Rounds kind k (List.replicate k round).flatten := by
  induction k with
  | zero => exact .zero []
  | succ k ih =>
    rw [List.replicate_succ, List.flatten_cons]
    exact .succ h ih

/-- Where a step of a kind gives out an event of that kind, the rounds of a schedule are
rounds of what it gives out. -/
theorem Rounds.trace {σ ε ο κ : Type*} {step : σ → ε → σ} {out : σ → ε → List ο}
    {kind : ε → Option κ} {kind' : ο → Option κ}
    (hout : ∀ s e c, kind e = some c → ∃ o ∈ out s e, kind' o = some c) {k : Nat} {es : List ε}
    (h : Rounds kind k es) (s : σ) : Rounds kind' k (trace step out s es) := by
  induction h generalizing s with
  | zero es => exact .zero _
  | @succ k es₁ es₂ hround _ ih =>
    rw [trace_append]
    refine .succ (fun c => ?_) (ih _)
    obtain ⟨e, he, hkind⟩ := hround c
    obtain ⟨before, after, rfl⟩ := List.append_of_mem he
    obtain ⟨o, ho, hkind'⟩ := hout (run step s before) e c hkind
    exact ⟨o, mem_trace_of_step ho, hkind'⟩

/-! ## Workers -/

/-- A server whose front job needs steps of certain kinds, at most `cap` of them.
A step finishes a job, or brings the front job forward, or leaves it as it is;
the last only if it is not of the kind that is needed. -/
structure Worker {σ ε : Type*} (step : σ → ε → σ) (α β κ : Type*) extends Server step α β where
  kind : ε → Option κ
  needs : σ → κ
  effort : σ → Nat
  cap : Nat
  effort_bounds : ∀ {s}, good s → waiting s ≠ [] → 0 < effort s ∧ effort s ≤ cap
  progress : ∀ {s} e, good s → waiting s ≠ [] →
    (waiting (step s e)).length < (waiting s).length + (arrives s e).length ∨
      effort (step s e) < effort s ∨
      (effort (step s e) = effort s ∧ needs (step s e) = needs s ∧ kind e ≠ some (needs s))

namespace Worker

variable {σ ε α β κ : Type*} {step : σ → ε → σ} (w : Worker step α β κ)

/-- The steps that the jobs still need which wait ahead of the newest `later` ones. -/
def ahead (s : σ) (later : Nat) : Nat :=
  if (w.waiting s).length ≤ later then 0
  else w.cap * ((w.waiting s).length - later - 1) + w.effort s

variable {w}

theorem waiting_ne_nil {s : σ} {later : Nat} (h : ¬ (w.waiting s).length ≤ later) :
    w.waiting s ≠ [] := by
  intro hnil
  rw [hnil] at h
  exact h (Nat.zero_le later)

theorem ahead_pos {s : σ} {later : Nat} (hs : w.good s) (h : ¬ (w.waiting s).length ≤ later) :
    0 < w.ahead s later := by
  rw [ahead, if_neg h]
  exact Nat.add_pos_right _ (w.effort_bounds hs (waiting_ne_nil h)).1

theorem length_le_of_ahead {s : σ} {later : Nat} (hs : w.good s) (h : w.ahead s later = 0) :
    (w.waiting s).length ≤ later := by
  by_contra hlt
  exact absurd h (ahead_pos hs hlt).ne'

theorem ahead_le {s : σ} (hs : w.good s) : w.ahead s 0 ≤ w.cap * (w.waiting s).length := by
  by_cases h : (w.waiting s).length ≤ 0
  · rw [ahead, if_pos h]
    exact Nat.zero_le _
  · obtain ⟨-, hle⟩ := w.effort_bounds hs (waiting_ne_nil h)
    have hlen : (w.waiting s).length - 1 + 1 = (w.waiting s).length :=
      Nat.sub_add_cancel (Nat.not_le.mp h)
    rw [ahead, if_neg h, Nat.sub_zero]
    calc w.cap * ((w.waiting s).length - 1) + w.effort s
        ≤ w.cap * ((w.waiting s).length - 1 + 1) := by
          rw [Nat.mul_succ]
          exact Nat.add_le_add_left hle _
      _ = w.cap * (w.waiting s).length := by rw [hlen]

/-- A job that is finished takes its last steps off what is ahead. -/
theorem ahead_of_finished {s : σ} {e : ε} {later : Nat} (hs : w.good s)
    (h : ¬ (w.waiting s).length ≤ later)
    (hfin : (w.waiting (step s e)).length < (w.waiting s).length + (w.arrives s e).length) :
    w.ahead (step s e) (later + (w.arrives s e).length) < w.ahead s later := by
  by_cases h' : (w.waiting (step s e)).length ≤ later + (w.arrives s e).length
  · rw [ahead, if_pos h']
    exact ahead_pos hs h
  · obtain ⟨hpos, -⟩ := w.effort_bounds hs (waiting_ne_nil h)
    obtain ⟨-, hle⟩ := w.effort_bounds (w.good_step e hs) (waiting_ne_nil h')
    have hone : (w.waiting (step s e)).length - (later + (w.arrives s e).length) - 1 + 1 ≤
        (w.waiting s).length - later - 1 := by omega
    rw [ahead, if_neg h', ahead, if_neg h]
    calc w.cap * ((w.waiting (step s e)).length - (later + (w.arrives s e).length) - 1) +
          w.effort (step s e)
        ≤ w.cap * ((w.waiting (step s e)).length - (later + (w.arrives s e).length) - 1 + 1) := by
          rw [Nat.mul_succ]
          exact Nat.add_le_add_left hle _
      _ ≤ w.cap * ((w.waiting s).length - later - 1) := Nat.mul_le_mul_left _ hone
      _ < w.cap * ((w.waiting s).length - later - 1) + w.effort s := Nat.lt_add_of_pos_right hpos

/-- One step: what is ahead becomes less, or it stays and the step was not of the
kind that is needed. -/
theorem ahead_step {s : σ} (hs : w.good s) (later : Nat) (e : ε) :
    w.ahead (step s e) (later + (w.arrives s e).length) < w.ahead s later ∨
      (w.ahead (step s e) (later + (w.arrives s e).length) = w.ahead s later ∧
        (0 < w.ahead s later → w.needs (step s e) = w.needs s ∧ w.kind e ≠ some (w.needs s))) := by
  have hgrow := w.waiting_length_le hs e
  by_cases h : (w.waiting s).length ≤ later
  · have h' : (w.waiting (step s e)).length ≤ later + (w.arrives s e).length :=
      hgrow.trans (Nat.add_le_add_right h _)
    refine .inr ⟨by rw [ahead, if_pos h', ahead, if_pos h], fun hpos => ?_⟩
    rw [ahead, if_pos h] at hpos
    exact absurd hpos (Nat.lt_irrefl 0)
  · by_cases hfin : (w.waiting (step s e)).length < (w.waiting s).length + (w.arrives s e).length
    · exact .inl (ahead_of_finished hs h hfin)
    · -- nothing is finished, so the front job is the one it was
      have hlen : (w.waiting (step s e)).length = (w.waiting s).length + (w.arrives s e).length :=
        Nat.le_antisymm hgrow (Nat.not_lt.mp hfin)
      have h' : ¬ (w.waiting (step s e)).length ≤ later + (w.arrives s e).length := by
        rw [hlen]
        exact fun hle => h (Nat.le_of_add_le_add_right hle)
      have hsame : (w.waiting (step s e)).length - (later + (w.arrives s e).length) - 1 =
          (w.waiting s).length - later - 1 := by
        rw [hlen, Nat.add_sub_add_right]
      rw [ahead, if_neg h', ahead, if_neg h, hsame]
      rcases w.progress e hs (waiting_ne_nil h) with hlt | hless | ⟨heq, hneeds, hkind⟩
      · exact absurd hlt hfin
      · exact .inl (Nat.add_lt_add_left hless _)
      · exact .inr ⟨by rw [heq], fun _ => ⟨hneeds, hkind⟩⟩

theorem ahead_run_le {s : σ} (hs : w.good s) (later : Nat) (es : List ε) :
    w.ahead (run step s es) (later + (trace step w.arrives s es).length) ≤ w.ahead s later := by
  induction es generalizing s later with
  | nil => exact le_refl _
  | cons e es ih =>
    have hrest := ih (w.good_step e hs) (later + (w.arrives s e).length)
    rw [trace, List.length_append, ← Nat.add_assoc, run_cons]
    rcases ahead_step hs later e with hlt | ⟨heq, -⟩
    · exact hrest.trans hlt.le
    · exact hrest.trans heq.le

/-- A round brings the front job forward. -/
theorem ahead_run_lt {s : σ} (hs : w.good s) {later : Nat} {es : List ε}
    (hpos : 0 < w.ahead s later) (hround : ∃ e ∈ es, w.kind e = some (w.needs s)) :
    w.ahead (run step s es) (later + (trace step w.arrives s es).length) < w.ahead s later := by
  induction es generalizing s later with
  | nil =>
    obtain ⟨e, he, -⟩ := hround
    exact absurd he List.not_mem_nil
  | cons e es ih =>
    have hrest := ahead_run_le (w.good_step e hs) (later + (w.arrives s e).length) es
    rw [trace, List.length_append, ← Nat.add_assoc, run_cons]
    rcases ahead_step hs later e with hlt | ⟨heq, hsame⟩
    · exact hrest.trans_lt hlt
    · -- the step was not the one that is needed, so that one is still to come
      obtain ⟨hneeds, hkind⟩ := hsame hpos
      obtain ⟨e', he', hk⟩ := hround
      rw [← heq]
      refine ih (w.good_step e hs) (heq ▸ hpos) ⟨e', ?_, hneeds ▸ hk⟩
      rcases List.mem_cons.mp he' with rfl | he'
      · exact absurd hk hkind
      · exact he'

theorem ahead_rounds {k : Nat} {es : List ε} (h : Rounds w.kind k es) {s : σ} (hs : w.good s)
    (later : Nat) :
    w.ahead (run step s es) (later + (trace step w.arrives s es).length) ≤ w.ahead s later - k := by
  induction h generalizing s later with
  | zero es => exact ahead_run_le hs later es
  | @succ k es₁ es₂ hround _ ih =>
    have hrest := ih (w.good_run hs es₁) (later + (trace step w.arrives s es₁).length)
    rw [run_append, trace_append, List.length_append, ← Nat.add_assoc]
    refine hrest.trans ?_
    rcases Nat.eq_zero_or_pos (w.ahead s later) with hzero | hpos
    · have hle := ahead_run_le hs later es₁
      rw [hzero] at hle ⊢
      exact (Nat.sub_le _ k).trans (hle.trans (Nat.zero_le _))
    · have hlt := ahead_run_lt hs hpos (hround (w.needs s))
      calc w.ahead (run step s es₁) (later + (trace step w.arrives s es₁).length) - k
          ≤ w.ahead s later - 1 - k := Nat.sub_le_sub_right (Nat.le_sub_one_of_lt hlt) k
        _ = w.ahead s later - (k + 1) := by rw [Nat.sub_sub, Nat.add_comm]

/-- After `cap` rounds for each job that waits, no more waits than has arrived. -/
theorem waiting_after_rounds {s : σ} (hs : w.good s) {k : Nat} {es : List ε}
    (hk : w.cap * (w.waiting s).length ≤ k) (h : Rounds w.kind k es) :
    (w.waiting (run step s es)).length ≤ (trace step w.arrives s es).length := by
  refine length_le_of_ahead (w.good_run hs es) ?_
  have hle := ahead_rounds h hs 0
  rw [Nat.zero_add, Nat.sub_eq_zero_of_le ((ahead_le hs).trans hk)] at hle
  exact Nat.le_zero.mp hle

/-- After `cap` rounds for each job that waits, those jobs have their receipts. -/
theorem receipts_after_rounds {s : σ} (hs : w.good s) {k : Nat} {es : List ε}
    (hk : w.cap * (w.waiting s).length ≤ k) (h : Rounds w.kind k es) :
    w.receipts s ++ (w.waiting s).filterMap w.receipt <+: w.receipts (run step s es) := by
  have hlen := waiting_after_rounds hs hk h
  obtain ⟨done, hdone, hreceipts⟩ := w.account hs es
  rw [hreceipts]
  obtain ⟨more, rfl⟩ := w.prefix_of_length_le hdone hlen
  rw [List.filterMap_append, ← List.append_assoc]
  exact List.prefix_append _ _

end Worker

end Run
