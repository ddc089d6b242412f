import Allegro.Lib.Run

/-!
# Services that answer requests

A service takes requests one at a time. Each request changes the state and has
an answer.

* `exchange`: the requests, each with its answer.
* `Respects`: states related by `R` answer alike, and stay related.
* `Invisible`: a request that is hidden (by what it is and how it is answered)
  leaves the state related to what it was.

`exchange_delete` is the law of deletion. Hidden requests can be left out: the
others are answered as before, and the final states are related.
-/

namespace Service

variable {σ ι ο : Type*}

/-- The state after the requests. -/
abbrev final (handle : σ → ι → σ × ο) : σ → List ι → σ :=
  Run.run fun s req => (handle s req).1

/-- The requests with their answers. -/
def exchange (handle : σ → ι → σ × ο) : σ → List ι → List (ι × ο)
  | _, [] => []
  | s, req :: reqs => (req, (handle s req).2) :: exchange handle (handle s req).1 reqs

/-- States that are related are answered alike and stay related. -/
def Respects (handle : σ → ι → σ × ο) (R : σ → σ → Prop) : Prop :=
  ∀ s t req, R s t → (handle s req).2 = (handle t req).2 ∧ R (handle s req).1 (handle t req).1

/-- A hidden request leaves the state related to what it was. -/
def Invisible (handle : σ → ι → σ × ο) (R : σ → σ → Prop) (hidden : ι × ο → Bool) : Prop :=
  ∀ s req, hidden (req, (handle s req).2) = true → R (handle s req).1 s

/-- The exchange without what is hidden. -/
def visible (hidden : ι × ο → Bool) (ex : List (ι × ο)) : List (ι × ο) :=
  ex.filter fun io => !hidden io

variable {handle : σ → ι → σ × ο} {R : σ → σ → Prop} {hidden : ι × ο → Bool}

theorem exchange_delete (htrans : ∀ {s t u}, R s t → R t u → R s u) (hresp : Respects handle R)
    (hinv : Invisible handle R hidden) {s t : σ} (hst : R s t) (reqs : List ι) :
    let rest := (visible hidden (exchange handle s reqs)).map Prod.fst
    exchange handle t rest = visible hidden (exchange handle s reqs) ∧
      R (final handle s reqs) (final handle t rest) := by
  induction reqs generalizing s t with
  | nil => exact ⟨rfl, hst⟩
  | cons req reqs ih =>
    obtain ⟨hans, hnext⟩ := hresp s t req hst
    simp only [visible, exchange, List.filter_cons] at ih ⊢
    cases hh : hidden (req, (handle s req).2) with
    | true =>
      -- the state after the request is related to `t`, which does not see it
      obtain ⟨hex, hfin⟩ := ih (htrans (hinv s req hh) hst)
      simp only [Bool.not_true, Bool.false_eq_true, if_false]
      exact ⟨hex, hfin⟩
    | false =>
      obtain ⟨hex, hfin⟩ := ih hnext
      simp only [Bool.not_false, if_true, List.map_cons, exchange]
      exact ⟨by rw [hex, ← hans], hfin⟩

end Service
