import Mathlib.Data.List.Basic

/-!
# Fallible computations

Inversion and success rules for `Except`: `bind`, `ok_or`, `map_err`, a check that
returns early, and a loop that stops at its first error.
-/

namespace Fallible

variable {ε α β : Type}

theorem bind_eq_ok {x : Except ε α} {f : α → Except ε β} {b : β} :
    (x >>= f) = .ok b ↔ ∃ a, x = .ok a ∧ f a = .ok b := by
  cases x with
  | error e => exact ⟨fun h => (nomatch h), fun ⟨_, h, _⟩ => (nomatch h)⟩
  | ok a =>
    refine ⟨fun h => ⟨a, rfl, h⟩, fun ⟨a', ha, h⟩ => ?_⟩
    cases ha
    exact h

/-- What holds of the errors of both halves holds of the errors of a bind. -/
theorem error_bind {P : ε → Prop} {x : Except ε α} {f : α → Except ε β}
    (hx : ∀ e, x = .error e → P e) (hf : ∀ a e, f a = .error e → P e) :
    ∀ e, (x >>= f) = .error e → P e := by
  intro e h
  cases x with
  | error e' =>
    cases h
    exact hx _ rfl
  | ok a => exact hf a e h

/-- `ok_or`: the given error if there is no value. -/
def orError (e : ε) : Option α → Except ε α
  | none => .error e
  | some a => .ok a

theorem orError_error {e e' : ε} {o : Option α} (h : orError e o = .error e') : e' = e := by
  cases o with
  | none =>
    cases h
    rfl
  | some a => cases h

theorem orError_eq_ok {e : ε} {o : Option α} {a : α} : orError e o = .ok a ↔ o = some a := by
  cases o with
  | none => exact ⟨fun h => (nomatch h), fun h => (nomatch h)⟩
  | some b => simp [orError]

/-- `map_err` leaves a value as it is. -/
theorem mapError_eq_ok {ε' : Type} {x : Except ε α} {f : ε → ε'} {a : α} :
    x.mapError f = .ok a ↔ x = .ok a := by
  cases x with
  | error e => exact ⟨fun h => (nomatch h), fun h => (nomatch h)⟩
  | ok b => exact ⟨fun h => by cases h; rfl, fun h => by cases h; rfl⟩

/-- `if p { return Err(e) }`. -/
def rejectIf (p : Prop) [Decidable p] (e : ε) : Except ε Unit := if p then .error e else .ok ()

theorem rejectIf_error {p : Prop} [Decidable p] {e e' : ε} (h : rejectIf p e = .error e') :
    e' = e := by
  unfold rejectIf at h
  split at h
  · cases h
    rfl
  · cases h

theorem rejectIf_eq_ok {p : Prop} [Decidable p] {e : ε} {u : Unit} :
    rejectIf p e = .ok u ↔ ¬ p := by
  unfold rejectIf
  split
  · next hp => exact ⟨fun h => (nomatch h), fun h => absurd hp h⟩
  · next hp => exact ⟨fun _ => hp, fun _ => rfl⟩

/-- A check in front of a computation. -/
theorem rejectIf_bind_eq_ok {p : Prop} [Decidable p] {e : ε} {x : Except ε β} {b : β} :
    (rejectIf p e >>= fun _ => x) = .ok b ↔ ¬ p ∧ x = .ok b := by
  rw [bind_eq_ok]
  constructor
  · rintro ⟨_, hp, hx⟩
    exact ⟨rejectIf_eq_ok.mp hp, hx⟩
  · rintro ⟨hp, hx⟩
    exact ⟨(), rejectIf_eq_ok.mpr hp, hx⟩

/-- A loop succeeds if and only if each of its steps does. -/
theorem mapM_eq_ok {f : α → Except ε β} {l : List α} {r : List β} :
    l.mapM f = .ok r ↔ List.Forall₂ (fun a b => f a = .ok b) l r := by
  induction l generalizing r with
  | nil =>
    constructor
    · intro h
      cases h
      exact .nil
    · intro h
      cases h
      rfl
  | cons a l ih =>
    rw [List.mapM_cons, bind_eq_ok]
    constructor
    · rintro ⟨b, hb, h⟩
      obtain ⟨bs, hbs, h⟩ := bind_eq_ok.mp h
      cases h
      exact .cons hb (ih.mp hbs)
    · intro h
      cases h with
      | cons hb hbs => exact ⟨_, hb, bind_eq_ok.mpr ⟨_, ih.mpr hbs, rfl⟩⟩

/-- A loop gives a value if and only if each of its steps does. -/
theorem exists_mapM_eq_ok {f : α → Except ε β} {l : List α} :
    (∃ r, l.mapM f = .ok r) ↔ ∀ a ∈ l, ∃ b, f a = .ok b := by
  induction l with
  | nil => exact ⟨fun _ a h => (nomatch h), fun _ => ⟨[], rfl⟩⟩
  | cons a l ih =>
    rw [List.forall_mem_cons, ← ih]
    constructor
    · rintro ⟨r, h⟩
      cases mapM_eq_ok.mp h with
      | cons hb hbs => exact ⟨⟨_, hb⟩, ⟨_, mapM_eq_ok.mpr hbs⟩⟩
    · rintro ⟨⟨b, hb⟩, bs, hbs⟩
      exact ⟨b :: bs, mapM_eq_ok.mpr (.cons hb (mapM_eq_ok.mp hbs))⟩

end Fallible
