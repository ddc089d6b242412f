import Allegro.Lib.Run
import Mathlib.Data.Set.Insert
import Mathlib.Logic.Function.Basic
import Mathlib.Logic.Relation

/-!
# A tree that hosts grow together

What hosts that extend one chain of blocks do, without how they do it. Every host has a
book of blocks and holds one of them final. It proposes a child of a block in its book,
takes a child that some host has proposed into its book, holds another block of its book
final, or loses its book and starts over from the root. A link that was proposed stays.

* `SharedTree.next`, `SharedTree.Permits`: the actions, and when they are permitted.
* `SharedTree.Rooted`: the invariant. A host may take a child whose parent it does not
  have. Even so, every block in a book is reached from the root by links that hosts have
  proposed (`rooted_run`).
-/

/-- The links proposed so far, and the book and the final block of each host. -/
structure SharedTree (ι β : Type*) where
  links : β → β → Prop
  book : ι → Set β
  final : ι → β

namespace SharedTree

open Run Relation

inductive Action (ι β : Type*)
  | lose (i : ι)
  | propose (i : ι) (parent child : β)
  | take (i : ι) (parent child : β)
  | finalize (i : ι) (block : β)
deriving DecidableEq

variable {ι β : Type*}

def start (root : β) : SharedTree ι β where
  links := fun _ _ => False
  book := fun _ => {root}
  final := fun _ => root

/-- When an action is permitted, where `child` says what is a child of a block. -/
def Permits (child : β → β → Prop) (t : SharedTree ι β) : Action ι β → Prop
  | .lose _ => True
  | .propose i p c => p ∈ t.book i ∧ child p c
  | .take _ p c => t.links p c
  | .finalize i b => b ∈ t.book i

structure Rooted (child : β → β → Prop) (root : β) (t : SharedTree ι β) : Prop where
  child : ∀ p c, t.links p c → child p c
  parent : ∀ p c, t.links p c → ReflTransGen t.links root p
  book : ∀ i, ∀ b ∈ t.book i, ReflTransGen t.links root b
  final : ∀ i, t.final i ∈ t.book i

theorem rooted_start {child : β → β → Prop} {root : β} :
    Rooted child root (start root : SharedTree ι β) where
  child := fun _ _ h => h.elim
  parent := fun _ _ h => h.elim
  book := by
    rintro i b rfl
    exact .refl
  final := fun _ => rfl

variable [DecidableEq ι]

/-- The books after host `i` has put a block into its own. -/
def enter (t : SharedTree ι β) (i : ι) (b : β) : ι → Set β :=
  Function.update t.book i (insert b (t.book i))

def next (root : β) (t : SharedTree ι β) : Action ι β → SharedTree ι β
  | .lose i =>
    { t with
      book := Function.update t.book i {root}
      final := Function.update t.final i root }
  | .propose i p c =>
    { t with
      links := fun p' c' => t.links p' c' ∨ (p' = p ∧ c' = c)
      book := t.enter i c }
  | .take i _ c => { t with book := t.enter i c }
  | .finalize i b => { t with final := Function.update t.final i b }

variable {child : β → β → Prop} {root : β} {t : SharedTree ι β} {i j : ι} {b c : β}

@[simp] theorem enter_self : t.enter i b i = insert b (t.book i) := Function.update_self _ _ _

@[simp] theorem enter_of_ne (h : j ≠ i) : t.enter i b j = t.book j := Function.update_of_ne h _ _

theorem subset_enter (t : SharedTree ι β) (i : ι) (b : β) (j : ι) : t.book j ⊆ t.enter i b j := by
  by_cases h : j = i
  · subst h
    rw [enter_self]
    exact Set.subset_insert _ _
  · rw [enter_of_ne h]

theorem mem_enter (h : c ∈ t.enter i b j) : c = b ∨ c ∈ t.book j := by
  by_cases hj : j = i
  · subst hj
    rw [enter_self] at h
    exact h
  · rw [enter_of_ne hj] at h
    exact .inr h

/-- A step of one host: `lose` may only shrink a book, and the others only add blocks that
are reached by links. -/
theorem rooted_next (h : Rooted child root t) {a : Action ι β} (ha : t.Permits child a) :
    Rooted child root (t.next root a) := by
  cases a with
  | lose i =>
    refine ⟨h.child, h.parent, fun j b hb => ?_, fun j => ?_⟩
    · by_cases hj : j = i
      · subst hj
        simp only [next, Function.update_self] at hb
        cases hb
        exact .refl
      · simp only [next, Function.update_of_ne hj] at hb
        exact h.book j b hb
    · by_cases hj : j = i
      · subst hj
        simp only [next, Function.update_self]
        rfl
      · simp only [next, Function.update_of_ne hj]
        exact h.final j
  | propose i p c =>
    obtain ⟨hp, hc⟩ := ha
    have hmono : ∀ {b}, ReflTransGen t.links root b →
        ReflTransGen (t.next root (.propose i p c)).links root b :=
      ReflTransGen.mono (fun _ _ => Or.inl) _ _
    have hparent := hmono (h.book i p hp)
    constructor
    · rintro p' c' (hold | ⟨rfl, rfl⟩)
      · exact h.child p' c' hold
      · exact hc
    · rintro p' c' (hold | ⟨rfl, rfl⟩)
      · exact hmono (h.parent p' c' hold)
      · exact hparent
    · intro j b hb
      rcases mem_enter hb with rfl | hold
      · exact hparent.tail (.inr ⟨rfl, rfl⟩)
      · exact hmono (h.book j b hold)
    · exact fun j => subset_enter t i c j (h.final j)
  | take i p c =>
    refine ⟨h.child, h.parent, fun j b hb => ?_, fun j => subset_enter t i c j (h.final j)⟩
    rcases mem_enter hb with rfl | hold
    · exact (h.parent p b ha).tail ha
    · exact h.book j b hold
  | finalize i b =>
    refine ⟨h.child, h.parent, h.book, fun j => ?_⟩
    by_cases hj : j = i
    · subst hj
      simp only [next, Function.update_self]
      exact ha
    · simp only [next, Function.update_of_ne hj]
      exact h.final j

theorem rooted_run {acts : List (Action ι β)}
    (h : Along (next root) (Permits child) (start root) acts) :
    Rooted child root (run (next root) (start root) acts) :=
  h.invariant (P := Rooted child root) (fun _ _ hs ha => rooted_next hs ha) rooted_start

end SharedTree
