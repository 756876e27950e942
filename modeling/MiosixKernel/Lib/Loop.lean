import Mathlib.Order.Basic

/-!
# Unbounded loops

`forever body fuel` runs a loop body until it leaves the loop. Running out of fuel is the fault
`stuck`, so a loop that terminates is one that returns for every large enough fuel.

* `forever_total`: an invariant with a decreasing measure makes the loop return.
* `forever_sound`: an invariant that the body keeps holds of what the loop returns.
* `mapM_eq_ok`, `mapM_eq_error`: a loop over a list.
-/

namespace Lib

variable {ε σ ρ : Type}

@[simp] theorem ok_bind {α β : Type} (a : α) (f : α → Except ε β) :
    ((Except.ok a : Except ε α) >>= f) = f a := rfl

@[simp] theorem pure_eq_ok {α : Type} (a : α) : (pure a : Except ε α) = .ok a := rfl

/-- What a computation in two parts did when it returned. -/
theorem bind_eq_ok {α β : Type} {x : Except ε α} {f : α → Except ε β} {b : β}
    (h : x >>= f = .ok b) : ∃ a, x = .ok a ∧ f a = .ok b := by
  cases x with
  | error e => cases h
  | ok a => exact ⟨a, rfl, h⟩

theorem map_eq_ok {α β : Type} {x : Except ε α} {f : α → β} {b : β} (h : f <$> x = .ok b) :
    ∃ a, x = .ok a ∧ f a = b := by
  cases x with
  | error e => cases h
  | ok a => exact ⟨a, rfl, Except.ok.inj h⟩

/-- What one pass through a loop body does: go round again, or leave with a result. -/
inductive Flow (σ ρ : Type) where
  | next (s : σ)
  | done (r : ρ)

/-- A loop with no exit condition of its own. -/
def forever (stuck : ε) (body : σ → Except ε (Flow σ ρ)) : ℕ → σ → Except ε ρ
  | 0, _ => .error stuck
  | fuel + 1, s =>
    match body s with
    | .error e => .error e
    | .ok (.next s') => forever stuck body fuel s'
    | .ok (.done r) => .ok r

theorem forever_next {stuck : ε} {body : σ → Except ε (Flow σ ρ)} {fuel : ℕ} {s s' : σ}
    (h : body s = .ok (.next s')) :
    forever stuck body (fuel + 1) s = forever stuck body fuel s' := by
  rw [forever, h]

theorem forever_done {stuck : ε} {body : σ → Except ε (Flow σ ρ)} {fuel : ℕ} {s : σ} {r : ρ}
    (h : body s = .ok (.done r)) : forever stuck body (fuel + 1) s = .ok r := by
  rw [forever, h]

/-- **Total correctness of a loop.** Every pass either leaves with a result in `Post`, or keeps
`Inv` and decreases `μ`. -/
theorem forever_total {stuck : ε} {body : σ → Except ε (Flow σ ρ)} (Inv : σ → Prop)
    (Post : ρ → Prop) (μ : σ → ℕ)
    (hbody : ∀ s, Inv s → (∃ s', body s = .ok (.next s') ∧ Inv s' ∧ μ s' < μ s) ∨
      ∃ r, body s = .ok (.done r) ∧ Post r) :
    ∀ (fuel : ℕ) (s : σ), Inv s → μ s < fuel → ∃ r, forever stuck body fuel s = .ok r ∧ Post r
  | 0, _, _, hμ => absurd hμ (Nat.not_lt_zero _)
  | fuel + 1, s, hs, hμ => by
    rcases hbody s hs with ⟨s', hb, hs', hlt⟩ | ⟨r, hb, hr⟩
    · rw [forever_next hb]
      exact forever_total Inv Post μ hbody fuel s' hs' (by omega)
    · exact ⟨r, forever_done hb, hr⟩

/-- **Partial correctness of a loop.** Every pass keeps `Inv` or leaves with a result in `Post`. -/
theorem forever_sound {stuck : ε} {body : σ → Except ε (Flow σ ρ)} (Inv : σ → Prop)
    (Post : ρ → Prop) (hnext : ∀ s s', Inv s → body s = .ok (.next s') → Inv s')
    (hdone : ∀ s r, Inv s → body s = .ok (.done r) → Post r) :
    ∀ (fuel : ℕ) (s : σ) (r : ρ), Inv s → forever stuck body fuel s = .ok r → Post r
  | 0, _, _, _, h => by cases h
  | fuel + 1, s, r, hs, h => by
    rw [forever] at h
    split at h
    · cases h
    · rename_i s' hb
      exact forever_sound Inv Post hnext hdone fuel s' r (hnext s s' hs hb) h
    · rename_i r' hb
      cases h
      exact hdone s _ hs hb

section List

variable {α β : Type} {f : α → Except ε β} {l : List α}

theorem mapM_eq_ok {g : α → β} (h : ∀ a ∈ l, f a = .ok (g a)) : l.mapM f = .ok (l.map g) := by
  induction l with
  | nil => rfl
  | cons a l ih =>
    rw [List.mapM_cons, h a List.mem_cons_self, ok_bind, ih fun b hb => h b (List.mem_cons_of_mem _ hb)]
    rfl

/-- Where one error is the only one that there can be, it is returned. -/
theorem mapM_eq_error {e : ε} (honly : ∀ a ∈ l, ∀ e', f a = .error e' → e' = e)
    (h : ∃ a ∈ l, f a = .error e) : l.mapM f = .error e := by
  induction l with
  | nil =>
    obtain ⟨a, ha, -⟩ := h
    exact absurd ha List.not_mem_nil
  | cons a l ih =>
    rw [List.mapM_cons]
    cases hfa : f a with
    | error e' =>
      rw [honly a List.mem_cons_self e' hfa]
      rfl
    | ok b =>
      obtain ⟨c, hc, hce⟩ := h
      obtain rfl | hc := List.mem_cons.1 hc
      · rw [hfa] at hce
        cases hce
      · rw [ok_bind, ih (fun d hd => honly d (List.mem_cons_of_mem _ hd)) ⟨c, hc, hce⟩]
        rfl

end List

end Lib
