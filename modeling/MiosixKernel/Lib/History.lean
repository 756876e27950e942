import Mathlib.Data.List.Basic

/-!
# Histories

A history lists what happened, the newest first. It is lawful when each thing that happened was allowed
by what happened before it.

* `Lawful`: every entry is allowed by the older ones;
* `Lawful.exists_older`: what allowed an entry is still in the history;
* `Lawful.filter`: forgetting entries that allowed none of the others.
-/

namespace Lib

variable {α : Type} {allowed : List α → α → Prop}

/-- Each entry was allowed by the older ones. -/
def Lawful (allowed : List α → α → Prop) : List α → Prop
  | [] => True
  | h :: older => allowed older h ∧ Lawful allowed older

theorem Lawful.exists_older {history : List α} (hl : Lawful allowed history) {h : α}
    (hmem : h ∈ history) : ∃ older, allowed older h ∧ older ⊆ history := by
  induction history with
  | nil => cases hmem
  | cons x older ih =>
    rcases List.mem_cons.mp hmem with rfl | hmem
    · exact ⟨older, hl.1, List.subset_cons_self _ _⟩
    · obtain ⟨o, hok, hsub⟩ := ih hl.2 hmem
      exact ⟨o, hok, List.Subset.trans hsub (List.subset_cons_self _ _)⟩

theorem Lawful.filter {history : List α} (hl : Lawful allowed history) (p : α → Bool)
    (hp : ∀ older x, allowed older x → p x = true → allowed (older.filter p) x) :
    Lawful allowed (history.filter p) := by
  induction history with
  | nil => trivial
  | cons x older ih =>
    rw [List.filter_cons]
    split
    · rename_i hx
      exact ⟨hp older x hl.1 hx, ih hl.2⟩
    · exact ih hl.2

end Lib
