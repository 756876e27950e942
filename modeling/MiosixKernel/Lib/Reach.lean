import Mathlib.Data.Set.Card
import Mathlib.Logic.Relation

/-!
# Relations without cycles

* `Acyclic`: no element is related to itself in one or more steps;
* `Acyclic.insert`, `Acyclic.toSink`: a new pair that closes no cycle, new pairs into an element without
  successors;
* `reflTransGen_insert`: a new pair that cannot be reached adds nothing;
* `reachCount`: how many elements can be reached, a measure that decreases along the relation.
-/

namespace Lib

open Relation

variable {α : Type} {r r' : α → α → Prop} {a b p o u : α}

def Acyclic (r : α → α → Prop) : Prop := ∀ a, ¬ TransGen r a a

theorem Acyclic.mono (h : Acyclic r) (hr : ∀ a b, r' a b → r a b) : Acyclic r' :=
  fun a ha => h a (TransGen.mono hr a a ha)

/-- A path with one more pair is an old path, or goes through the pair. -/
theorem transGen_insert (hr : ∀ a b, r' a b → r a b ∨ a = p ∧ b = o) (h : TransGen r' a b) :
    TransGen r a b ∨ ReflTransGen r a p ∧ ReflTransGen r o b := by
  induction h with
  | single hab =>
    obtain hab | ⟨rfl, rfl⟩ := hr _ _ hab
    · exact Or.inl (.single hab)
    · exact Or.inr ⟨.refl, .refl⟩
  | tail _ hbc ih =>
    obtain hbc | ⟨rfl, rfl⟩ := hr _ _ hbc
    · exact ih.imp (·.tail hbc) fun ⟨h1, h2⟩ => ⟨h1, h2.tail hbc⟩
    · obtain ih | ⟨h1, -⟩ := ih
      · exact Or.inr ⟨ih.to_reflTransGen, .refl⟩
      · exact Or.inr ⟨h1, .refl⟩

/-- A new pair that cannot be reached adds nothing. -/
theorem reflTransGen_insert (hr : ∀ a b, r' a b ↔ r a b ∨ a = p ∧ b = o) (hu : ¬ ReflTransGen r u p) :
    ReflTransGen r' u b ↔ ReflTransGen r u b := by
  refine ⟨fun h => ?_, fun h => ReflTransGen.mono (fun a b hab => (hr a b).2 (Or.inl hab)) u b h⟩
  induction h with
  | refl => exact .refl
  | tail _ hab ih =>
    obtain hab | ⟨rfl, -⟩ := (hr _ _).1 hab
    · exact ih.tail hab
    · exact absurd ih hu

theorem Acyclic.insert (h : Acyclic r) (hr : ∀ a b, r' a b → r a b ∨ a = p ∧ b = o)
    (hop : ¬ ReflTransGen r o p) : Acyclic r' := fun a ha => by
  obtain ha | ⟨h1, h2⟩ := transGen_insert hr ha
  · exact h a ha
  · exact hop (h2.trans h1)

/-- New pairs into an element without successors. -/
theorem Acyclic.toSink (h : Acyclic r) (hr : ∀ a b, r' a b → b = u ∨ r a b) (hu : ∀ b, ¬ r' u b) :
    Acyclic r' := by
  have hpath : ∀ {a b}, TransGen r' a b → b = u ∨ TransGen r a b := by
    intro a b hab
    induction hab with
    | single hab => exact (hr _ _ hab).imp_right .single
    | tail _ hbc ih =>
      obtain rfl | ih := ih
      · exact absurd hbc (hu _)
      · exact (hr _ _ hbc).imp_right ih.tail
  intro a ha
  obtain rfl | hold := hpath ha
  · obtain ⟨b, hab, -⟩ := TransGen.head'_iff.1 ha
    exact hu b hab
  · exact h a hold

/-- How many elements can be reached from one. -/
noncomputable def reachCount (r : α → α → Prop) (a : α) : ℕ := {b | ReflTransGen r a b}.ncard

variable [Fintype α]

theorem reachCount_pos (r : α → α → Prop) (a : α) : 0 < reachCount r a :=
  (Set.ncard_pos (Set.toFinite _)).2 ⟨a, .refl⟩

theorem reachCount_le_card (r : α → α → Prop) (a : α) : reachCount r a ≤ Fintype.card α := by
  rw [← Nat.card_eq_fintype_card]
  exact Set.ncard_le_card _

/-- A step from an element that is on no cycle. -/
theorem reachCount_lt (ha : ¬TransGen r a a) (hab : r a b) : reachCount r b < reachCount r a := by
  refine Set.ncard_lt_ncard ⟨fun c hc => ReflTransGen.head hab hc, fun hsub => ?_⟩ (Set.toFinite _)
  have hba : ReflTransGen r b a := hsub (ReflTransGen.refl : ReflTransGen r a a)
  exact ha (TransGen.head' hab hba)

theorem Acyclic.reachCount_lt (h : Acyclic r) (hab : r a b) : reachCount r b < reachCount r a :=
  Lib.reachCount_lt (h a) hab

end Lib
