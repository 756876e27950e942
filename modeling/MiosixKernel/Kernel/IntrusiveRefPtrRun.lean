import MiosixKernel.Kernel.IntrusiveRefPtr
import Mathlib.Data.Set.Finite.List
import Mathlib.Data.Finite.Prod
import Mathlib.Tactic.Ring

/-!
# Every object is deleted once, with its last pointer

* `Counts`: every object counts the pointers to it, but for the pending pointers, which have let go of their
  object and still point to it;
* `Drops`: what a cascade of destructors does to the pointers;
* `deleteObject_spec`, `release_spec`: objects that go with a pointer are deleted, and nothing else is
  touched;
* `Owned`, `step_spec`, `run_ownership`: what holds after every operation of a program.
-/

namespace Miosix

namespace RefHeap

open RefPtr

variable {s s' s₀ : RefHeap} {P : Set RefPtr} {D : Set ℕ} {p q : RefPtr} {o x : ℕ} {c : ℤ}

/-- The pointers to an object that are not pending. -/
def refs (s : RefHeap) (P : Set RefPtr) (o : ℕ) : Set RefPtr := {p | p ∉ P ∧ s.object p = some (some o)}

/-- The pointers in `P` are pending, and the destructors of the objects in `D` are running. -/
structure Counts (s : RefHeap) (P : Set RefPtr) (D : Set ℕ) : Prop where
  counted : ∀ o c, s.referenceCount o = some c → c = (s.refs P o).ncard
  alive : ∀ p, p ∉ P → ∀ o, s.object p = some (some o) → s.referenceCount o ≠ none ∧ o ∉ D
  finite : {p | s.object p ≠ none}.Finite
  live : ∀ o, s.referenceCount o ≠ none ↔ o < s.created ∧ o ∉ s.deleted
  fields : ∀ o i, s.object (field o i) ≠ none ↔ s.referenceCount o ≠ none ∧ i < s.fields o
  bound : ∀ o ∈ s.deleted, o < s.created
  nodup : s.deleted.Nodup
  dying : ∀ o ∈ D, s.referenceCount o ≠ none

theorem Counts.finite_refs (h : s.Counts P D) (o : ℕ) : (s.refs P o).Finite :=
  h.finite.subset fun p hp => by simp [hp.2]

/-- Objects that no destructor is running for. -/
def liveSet (s : RefHeap) (D : Set ℕ) : Set ℕ := {o | s.referenceCount o ≠ none ∧ o ∉ D}

theorem Counts.finite_liveSet (h : s.Counts P D) (D' : Set ℕ) : (s.liveSet D').Finite :=
  (Set.finite_lt_nat s.created).subset fun o ho => ((h.live o).1 ho.1).1

/-! ## The parts of an operation -/

theorem setObject_eq (hp : s.object p ≠ none) (v : Option ℕ) :
    s.setObject p v = some { s with object := Function.update s.object p (some v) } := by
  obtain ⟨w, hw⟩ := Option.ne_none_iff_exists'.1 hp
  simp [setObject, hw]

theorem atomicAdd_eq (hc : s.referenceCount o = some c) (n : ℤ) : s.atomicAdd o n =
    some { s with referenceCount := Function.update s.referenceCount o (some (c + n)) } := by
  simp [atomicAdd, hc]

/-- A pointer lets go of its object. -/
theorem Counts.decrement (h : s.Counts P D) (hp : s.object p = some (some o)) (hP : p ∉ P)
    (hc : s.referenceCount o = some c) :
    Counts { s with referenceCount := Function.update s.referenceCount o (some (c - 1)) }
      (insert p P) D := by
  have hne : ∀ z, Function.update s.referenceCount o (some (c - 1)) z ≠ none ↔
      s.referenceCount z ≠ none := by
    intro z
    by_cases hz : z = o
    · subst hz; simp [hc]
    · rw [Function.update_of_ne hz]
  refine ⟨fun z d hd => ?_, fun q hq z hz => ?_, h.finite, fun z => (hne z).trans (h.live z),
    fun z i => (h.fields z i).trans (and_congr_left' (hne z).symm), h.bound, h.nodup,
    fun z hz => (hne z).2 (h.dying z hz)⟩
  · dsimp only at hd
    by_cases hz : z = o
    · subst hz
      rw [Function.update_self, Option.some_inj] at hd
      have hmem : p ∈ s.refs P z := ⟨hP, hp⟩
      have hpos : 0 < (s.refs P z).ncard := (Set.ncard_pos (h.finite_refs z)).2 ⟨p, hmem⟩
      have hrefs : refs { s with referenceCount := Function.update s.referenceCount z (some (c - 1)) }
          (insert p P) z = s.refs P z \ {p} := by
        ext q
        simp only [refs, Set.mem_ofPred_eq, Set.mem_insert_iff, not_or, Set.mem_sdiff,
          Set.mem_singleton_iff]
        tauto
      rw [← hd, hrefs, Set.ncard_sdiff_singleton_of_mem hmem, h.counted z c hc]
      omega
    · rw [Function.update_of_ne hz] at hd
      rw [h.counted z d hd]
      congr 2
      ext q
      simp only [refs, Set.mem_ofPred_eq, Set.mem_insert_iff, not_or]
      refine and_congr_left fun hq => ⟨fun hqP => ⟨?_, hqP⟩, And.right⟩
      rintro rfl
      rw [hp] at hq
      exact hz (by simpa using hq.symm)
  · have := h.alive q (fun hqP => hq (Set.mem_insert_of_mem p hqP)) z hz
    exact ⟨(hne z).2 this.1, this.2⟩

/-- A null pointer counts as one that has let go. -/
theorem Counts.insert_null (h : s.Counts P D) (hp : s.object p = some none) :
    s.Counts (insert p P) D where
  counted z c hc := by
    rw [h.counted z c hc]
    congr 2
    ext q
    simp only [refs, Set.mem_ofPred_eq, Set.mem_insert_iff, not_or]
    refine and_congr_left fun hq => ⟨fun hqP => ⟨?_, hqP⟩, And.right⟩
    rintro rfl
    simp [hp] at hq
  alive q hq z hz := h.alive q (fun hqP => hq (Set.mem_insert_of_mem p hqP)) z hz
  finite := h.finite
  live := h.live
  fields := h.fields
  bound := h.bound
  nodup := h.nodup
  dying := h.dying

/-- A pointer that has let go is set to null. -/
theorem Counts.setNull (h : s.Counts (insert p P) D) (hp : s.object p ≠ none) :
    Counts { s with object := Function.update s.object p (some none) } P D := by
  have hne : ∀ q, Function.update s.object p (some none) q ≠ none ↔ s.object q ≠ none := by
    intro q
    by_cases hq : q = p
    · subst hq; simp [hp]
    · rw [Function.update_of_ne hq]
  have hobj : ∀ q z, Function.update s.object p (some none) q = some (some z) ↔
      q ≠ p ∧ s.object q = some (some z) := by
    intro q z
    by_cases hq : q = p
    · subst hq; simp
    · rw [Function.update_of_ne hq]; simp [hq]
  refine ⟨fun z c hc => ?_, fun q hq z hz => ?_, ?_, h.live, fun z i => (hne _).trans (h.fields z i),
    h.bound, h.nodup, h.dying⟩
  · rw [h.counted z c hc]
    congr 2
    ext q
    simp only [refs, Set.mem_ofPred_eq, Set.mem_insert_iff, not_or, hobj]
    tauto
  · obtain ⟨hqp, hz⟩ := (hobj q z).1 hz
    exact h.alive q (fun hqP => (Set.mem_insert_iff.1 hqP).elim hqp hq) z hz
  · refine h.finite.subset fun q hq => (hne q).1 hq

/-! ## What a cascade drops -/

/-- What the pointers in `R` let go of, and the objects in `K` are deleted. -/
structure Drops (R : Set RefPtr) (K : Set ℕ) (s s' : RefHeap) : Prop where
  object : ∀ q, s'.object q = s.object q ∨ q ∈ R ∧ s'.object q = some none ∨
    ∃ o i, q = field o i ∧ o ∈ K ∧ s'.object q = none
  fields : s'.fields = s.fields
  created : s'.created = s.created
  deleted : s.deleted ⊆ s'.deleted
  dead : ∀ o ∈ s'.deleted, o ∈ s.deleted ∨ o ∈ K

variable {R : Set RefPtr} {K : Set ℕ}

theorem Drops.refl (s : RefHeap) : s.Drops R K s :=
  ⟨fun _ => Or.inl rfl, rfl, rfl, List.Subset.refl _, fun _ => Or.inl⟩

theorem Drops.trans {s₁ s₂ s₃ : RefHeap} (h : Drops R K s₁ s₂) (h' : Drops R K s₂ s₃) :
    Drops R K s₁ s₃ where
  object q := by
    obtain hq | hq := h'.object q
    · rw [hq]
      exact h.object q
    · exact Or.inr hq
  fields := h'.fields.trans h.fields
  created := h'.created.trans h.created
  deleted := List.Subset.trans h.deleted h'.deleted
  dead o ho := (h'.dead o ho).elim (h.dead o) Or.inr

theorem Drops.of_object (h : Drops R K s s') (hq : s'.object q = some (some o)) :
    s.object q = some (some o) := by
  obtain h1 | ⟨-, h1⟩ | ⟨_, _, -, -, h1⟩ := h.object q
  · rwa [← h1]
  · cases hq.symm.trans h1
  · cases hq.symm.trans h1

theorem Drops.liveSet_subset (h : Drops R K s s') (hs : s.Counts P D) {P' : Set RefPtr} {D' : Set ℕ}
    (hs' : s'.Counts P' D') (E : Set ℕ) : s'.liveSet E ⊆ s.liveSet E := by
  rintro z ⟨hz, hzE⟩
  obtain ⟨hlt, hnd⟩ := (hs'.live z).1 hz
  exact ⟨(hs.live z).2 ⟨h.created ▸ hlt, fun hd => hnd (h.deleted hd)⟩, hzE⟩

/-- Nothing but `referenceCount` changed. -/
theorem Drops.of_count (f : ℕ → Option ℤ) : s.Drops R K { s with referenceCount := f } :=
  ⟨fun _ => Or.inl rfl, rfl, rfl, List.Subset.refl _, fun _ => Or.inl⟩

/-- Pointers that go stay where they are as long as the destructors of their objects are running. -/
def Pending (R : Set RefPtr) (K D : Set ℕ) (p : RefPtr) : Prop :=
  p ∈ R ∧ ∀ o i, p = field o i → o ∈ D ∨ o ∉ K

theorem Drops.object_ne_none (h : Drops R K s s') (hs : s.Counts P D) {P' : Set RefPtr}
    (hs' : s'.Counts P' D) (hp : Pending R K D p) (hne : s.object p ≠ none) : s'.object p ≠ none := by
  obtain h1 | ⟨-, h1⟩ | ⟨o, i, rfl, hK, -⟩ := h.object p
  · rwa [h1]
  · simp [h1]
  · have hD := (hp.2 o i rfl).resolve_right (not_not.2 hK)
    rw [hs'.fields, h.fields]
    exact ⟨hs'.dying o hD, ((hs.fields o i).1 hne).2⟩

/-- No object that was kept alive lost its last pointer. -/
def KeepsOwned (D : Set ℕ) (s s' : RefHeap) : Prop :=
  ∀ o, s'.referenceCount o = some 0 → o ∈ D ∨ s.referenceCount o = some 0

/-- What goes with the pointers in `R` of the heap `s₀`. -/
structure Closed (s₀ : RefHeap) (R : Set RefPtr) (K : Set ℕ) : Prop where
  dies : ∀ o p, s₀.object p = some (some o) → (∀ q, s₀.object q = some (some o) → q ∈ R) → o ∈ K
  fields : ∀ o ∈ K, ∀ i, field o i ∈ R

/-- `del` deletes an object that goes, with all that goes with it. -/
def Deletes (s₀ : RefHeap) (R : Set RefPtr) (K : Set ℕ) (del : RefHeap → ℕ → Option RefHeap)
    (bound : ℕ) : Prop :=
  ∀ s P D o, s.Counts P D → Drops R K s₀ s → (∀ p ∈ P, Pending R K D p) → o ∈ K → o ∉ D →
    s.referenceCount o = some 0 → (s.liveSet D).ncard ≤ bound →
    ∃ s', del s o = some s' ∧ s'.Counts P D ∧ Drops R K s s' ∧ KeepsOwned D s s' ∧
      s'.referenceCount o = none

variable {del : RefHeap → ℕ → Option RefHeap} {bound : ℕ}

theorem release_spec (hcl : Closed s₀ R K) (hdel : Deletes s₀ R K del bound) (h : s.Counts P D)
    (h₀ : Drops R K s₀ s) (hP : ∀ p ∈ P, Pending R K D p) (hp : p ∉ P) (hpR : Pending R K D p)
    (hne : s.object p ≠ none) (hb : (s.liveSet D).ncard ≤ bound) :
    ∃ s', s.release del p = some s' ∧ s'.Counts (insert p P) D ∧ Drops R K s s' ∧
      KeepsOwned D s s' := by
  obtain ⟨v, hv⟩ := Option.ne_none_iff_exists'.1 hne
  cases v with
  | none =>
    refine ⟨s, by simp [release, decrementRefCount, hv], h.insert_null hv, .refl s, fun o => Or.inr⟩
  | some x =>
    obtain ⟨hx, hxD⟩ := h.alive p hp x hv
    obtain ⟨c, hc⟩ := Option.ne_none_iff_exists'.1 hx
    have h₁ := h.decrement hv hp hc
    set s₁ : RefHeap := { s with referenceCount := Function.update s.referenceCount x (some (c - 1)) }
      with hs₁
    have hd₁ : Drops R K s s₁ := .of_count _
    have hrun : s.release del p = if c = 1 then del s₁ x else some s₁ := by
      simp only [release, decrementRefCount, hv, Option.bind_eq_bind, Option.bind_some, hc,
        atomicAdd_eq hc, decide_eq_true_eq]
      rfl
    have hcount : ∀ z, z ≠ x → s₁.referenceCount z = s.referenceCount z := fun z hz =>
      Function.update_of_ne hz _ _
    rw [hrun]
    by_cases hc1 : c = 1
    · rw [if_pos hc1]
      subst hc1
      have hlive : s₁.liveSet D = s.liveSet D := by
        ext z
        refine and_congr_left fun _ => ?_
        by_cases hz : z = x
        · subst hz; simp [hs₁, hc]
        · rw [hcount z hz]
      -- the pointers to the object were `p`, pointers that have let go, and pointers that went
      have hone : s.refs P x = {p} := by
        obtain ⟨a, ha⟩ := Set.ncard_eq_one.1 (by exact_mod_cast (h.counted x 1 hc).symm)
        have : p ∈ s.refs P x := ⟨hp, hv⟩
        rw [ha] at this ⊢
        rw [Set.mem_singleton_iff.1 this]
      have hxK : x ∈ K := by
        refine hcl.dies x p (h₀.of_object hv) fun q hq => ?_
        obtain h1 | ⟨hqR, -⟩ | ⟨o, i, rfl, hK, -⟩ := h₀.object q
        · by_cases hqP : q ∈ P
          · exact (hP q hqP).1
          · have : q ∈ s.refs P x := ⟨hqP, h1.trans hq⟩
            rw [hone, Set.mem_singleton_iff] at this
            exact this ▸ hpR.1
        · exact hqR
        · exact hcl.fields o hK i
      obtain ⟨s', hrun', h', hd', hk', hdead⟩ := hdel s₁ (insert p P) D x h₁ (h₀.trans hd₁)
        (by rintro q (rfl | hq); exacts [hpR, hP q hq]) hxK hxD (by simp [hs₁]) (hlive ▸ hb)
      refine ⟨s', hrun', h', hd₁.trans hd', fun z hz => ?_⟩
      have hzx : z ≠ x := by
        rintro rfl
        cases hdead.symm.trans hz
      rw [← hcount z hzx]
      exact hk' z hz
    · rw [if_neg hc1]
      refine ⟨s₁, rfl, h₁, hd₁, fun z hz => ?_⟩
      by_cases hzx : z = x
      · subst hzx
        rw [hs₁] at hz
        simp only [Function.update_self, Option.some_inj] at hz
        omega
      · exact Or.inr (hcount z hzx ▸ hz)

theorem resetWith_spec (hcl : Closed s₀ R K) (hdel : Deletes s₀ R K del bound) (h : s.Counts P D)
    (h₀ : Drops R K s₀ s) (hP : ∀ p ∈ P, Pending R K D p) (hp : p ∉ P) (hpR : Pending R K D p)
    (hne : s.object p ≠ none) (hb : (s.liveSet D).ncard ≤ bound) :
    ∃ s', s.resetWith del p = some s' ∧ s'.Counts P D ∧ Drops R K s s' ∧ KeepsOwned D s s' ∧
      s'.object p = some none := by
  obtain ⟨s₁, hrun, h₁, hd₁, hk₁⟩ := release_spec hcl hdel h h₀ hP hp hpR hne hb
  have hne₁ := hd₁.object_ne_none h h₁ hpR hne
  refine ⟨_, by rw [resetWith, hrun]; exact setObject_eq hne₁ none, h₁.setNull hne₁, ?_, hk₁,
    Function.update_self _ _ _⟩
  refine hd₁.trans ⟨fun q => ?_, rfl, rfl, List.Subset.refl _, fun _ => Or.inl⟩
  by_cases hq : q = p
  · subst hq
    exact Or.inr (Or.inl ⟨hpR.1, Function.update_self _ _ _⟩)
  · exact Or.inl (Function.update_of_ne hq _ _)

/-- The fields of an object whose destructor is running are destroyed, the last one first. -/
theorem fields_spec (hcl : Closed s₀ R K) (hdel : Deletes s₀ R K del bound)
    (hP : ∀ p ∈ P, Pending R K D p) (hPo : ∀ i, field o i ∉ P) (hK : o ∈ K) (ho : o ∈ D) :
    ∀ (n : ℕ) (s : RefHeap), s.Counts P D → Drops R K s₀ s → n ≤ s.fields o →
      (s.liveSet D).ncard ≤ bound →
      ∃ s', (List.range n).reverse.foldlM (fun s i => resetWith del s (field o i)) s = some s' ∧
        s'.Counts P D ∧ Drops R K s s' ∧ KeepsOwned D s s' ∧ ∀ i < n, s'.object (field o i) = some none
  | 0, s, h, _, _, _ => ⟨s, rfl, h, .refl s, fun _ => Or.inr, fun i hi => absurd hi (Nat.not_lt_zero i)⟩
  | n + 1, s, h, h₀, hn, hb => by
    have hpend : Pending R K D (field o n) :=
      ⟨hcl.fields o hK n, by rintro _ _ ⟨⟩; exact Or.inl ho⟩
    have hne : s.object (field o n) ≠ none := (h.fields o n).2 ⟨h.dying o ho, hn⟩
    obtain ⟨s₁, hrun₁, h₁, hd₁, hk₁, hnull₁⟩ := resetWith_spec hcl hdel h h₀ hP (hPo n) hpend hne hb
    have hb₁ : (s₁.liveSet D).ncard ≤ bound :=
      (Set.ncard_le_ncard (hd₁.liveSet_subset h h₁ D) (h.finite_liveSet D)).trans hb
    obtain ⟨s₂, hrun₂, h₂, hd₂, hk₂, hnull₂⟩ := fields_spec hcl hdel hP hPo hK ho n s₁ h₁ (h₀.trans hd₁)
      (by rw [hd₁.fields]; omega) hb₁
    refine ⟨s₂, ?_, h₂, hd₁.trans hd₂, fun z hz => (hk₂ z hz).elim Or.inl (hk₁ z), fun i hi => ?_⟩
    · rw [List.range_succ, List.reverse_append, List.reverse_singleton, List.singleton_append,
        List.foldlM_cons, hrun₁]
      exact hrun₂
    · obtain hi | rfl := Nat.lt_succ_iff_lt_or_eq.1 hi
      · exact hnull₂ i hi
      · have hne₂ := hd₂.object_ne_none h₁ h₂ hpend (by simp [hnull₁])
        obtain h3 | ⟨-, h3⟩ | ⟨_, _, -, -, h3⟩ := hd₂.object (field o i)
        · rw [h3, hnull₁]
        · exact h3
        · exact absurd h3 hne₂

/-- The memory of an object goes when its fields point to nothing. -/
theorem Counts.free (h : s.Counts P (insert o D)) (hoD : o ∉ D)
    (hnull : ∀ i < s.fields o, s.object (field o i) = some none) : (s.free o).Counts P D := by
  have ho : s.referenceCount o ≠ none := h.dying o (Set.mem_insert o D)
  have hobj : ∀ q z, (s.free o).object q = some (some z) ↔ s.object q = some (some z) := by
    intro q z
    cases q with
    | field o' i =>
      by_cases ho' : o' = o
      · subst ho'
        have : s.object (field o' i) ≠ some (some z) := by
          intro hz
          have hi := ((h.fields o' i).1 (by simp [hz])).2
          cases (hnull i hi).symm.trans hz
        simp [RefHeap.free, this]
      · simp [RefHeap.free, ho']
    | _ => rfl
  have hcount : ∀ z, z ≠ o → (s.free o).referenceCount z = s.referenceCount z := fun z hz =>
    Function.update_of_ne hz _ _
  have hself : (s.free o).referenceCount o = none := Function.update_self _ _ _
  have hlive : ∀ z, (s.free o).referenceCount z ≠ none ↔ z ≠ o ∧ s.referenceCount z ≠ none := by
    intro z
    by_cases hz : z = o
    · subst hz; simp [hself]
    · simp [hcount z hz, hz]
  refine ⟨fun z c hc => ?_, fun q hq z hz => ?_, ?_, fun z => ?_, fun z i => ?_, ?_, ?_, fun z hz => ?_⟩
  · have hz : z ≠ o := by rintro rfl; cases hself.symm.trans hc
    rw [hcount z hz] at hc
    rw [h.counted z c hc]
    congr 2
    ext q
    exact and_congr_right fun _ => (hobj q z).symm
  · obtain ⟨hz, hzD⟩ := h.alive q hq z ((hobj q z).1 hz)
    rw [Set.mem_insert_iff, not_or] at hzD
    exact ⟨(hlive z).2 ⟨hzD.1, hz⟩, hzD.2⟩
  · refine h.finite.subset fun q hq => ?_
    cases q with
    | field o' i =>
      refine fun hn => hq ?_
      dsimp only [RefHeap.free]
      rw [hn, ite_self]
    | _ => exact hq
  · rw [hlive, h.live]
    simp only [RefHeap.free, List.mem_cons, not_or]
    tauto
  · rw [hlive]
    by_cases hz : z = o
    · subst hz; simp [RefHeap.free]
    · simpa [RefHeap.free, hz] using h.fields z i
  · rintro z hz
    obtain rfl | hz := List.mem_cons.1 hz
    · exact ((h.live z).1 ho).1
    · exact h.bound z hz
  · exact List.nodup_cons.2 ⟨((h.live o).1 ho).2, h.nodup⟩
  · exact (hlive z).2 ⟨ne_of_mem_of_not_mem hz hoD, h.dying z (Set.mem_insert_of_mem o hz)⟩

/-- **Deletion.** With as much fuel as there are objects that no destructor is running for. -/
theorem deleteObject_spec (hcl : Closed s₀ R K) : ∀ bound, Deletes s₀ R K (deleteObject bound) bound
  | 0, s, P, D, o, h, h₀, hP, hK, hoD, hc, hb => by
    have hmem : o ∈ s.liveSet D := ⟨by simp [hc], hoD⟩
    have := (Set.ncard_pos (h.finite_liveSet D)).2 ⟨o, hmem⟩
    omega
  | bound + 1, s, P, D, o, h, h₀, hP, hK, hoD, hc, hb => by
    have hlive : s.referenceCount o ≠ none := by simp [hc]
    have hD : ∀ p ∈ P, Pending R K (insert o D) p := fun p hp =>
      ⟨(hP p hp).1, fun y i hy => ((hP p hp).2 y i hy).imp_left (Set.mem_insert_of_mem o)⟩
    have hPo : ∀ i, field o i ∉ P := fun i hi => ((hP _ hi).2 o i rfl).elim hoD (not_not.2 hK)
    -- no pointer points to the object but those that have let go
    have hnone : s.refs P o = ∅ := (Set.ncard_eq_zero (h.finite_refs o)).1 (by
      exact_mod_cast (h.counted o 0 hc).symm)
    have hins : s.Counts P (insert o D) :=
      { h with
        alive := fun p hp z hz => by
          obtain ⟨hz', hzD⟩ := h.alive p hp z hz
          refine ⟨hz', fun hmem => ?_⟩
          obtain rfl | hmem := hmem
          · have : p ∈ s.refs P z := ⟨hp, hz⟩
            rw [hnone] at this
            exact this
          · exact hzD hmem
        dying := by
          rintro z (rfl | hz)
          · exact hlive
          · exact h.dying z hz }
    have hb' : (s.liveSet (insert o D)).ncard ≤ bound := by
      have hsub : s.liveSet (insert o D) = s.liveSet D \ {o} := by
        ext z
        simp only [liveSet, Set.mem_ofPred_eq, Set.mem_insert_iff, not_or, Set.mem_sdiff,
          Set.mem_singleton_iff]
        tauto
      rw [hsub, Set.ncard_sdiff_singleton_of_mem (show o ∈ s.liveSet D from ⟨hlive, hoD⟩)]
      omega
    obtain ⟨s₁, hrun, h₁, hd₁, hk₁, hnull⟩ := fields_spec hcl (deleteObject_spec hcl bound) hD hPo hK
      (Set.mem_insert o D) (s.fields o) s hins h₀ le_rfl hb'
    refine ⟨s₁.free o, by rw [deleteObject, hrun]; rfl, h₁.free hoD (hd₁.fields ▸ hnull), ?_, ?_,
      Function.update_self _ _ _⟩
    · refine hd₁.trans ⟨fun q => ?_, rfl, rfl, List.subset_cons_self _ _, fun z hz => ?_⟩
      · cases q with
        | field o' i =>
          by_cases ho' : o' = o
          · exact Or.inr (Or.inr ⟨o', i, rfl, ho' ▸ hK, if_pos ho'⟩)
          · exact Or.inl (if_neg ho')
        | _ => exact Or.inl rfl
      · obtain rfl | hz := List.mem_cons.1 hz
        · exact Or.inr hK
        · exact Or.inl hz
    · intro z hz
      have hzo : z ≠ o := by
        rintro rfl
        simp [RefHeap.free] at hz
      obtain hz | hz := hk₁ z ((Function.update_of_ne hzo _ _).symm.trans hz)
      · exact Or.inl (hz.resolve_left hzo)
      · exact Or.inr hz

/-! ## Letting go outside of a destructor -/

theorem closed_released (s : RefHeap) (p : RefPtr) :
    Closed s {q | s.Released p q} {o | s.Dies p o} where
  dies _ q hq hall := ⟨⟨q, hq⟩, hall⟩
  fields _ := fun ⟨⟨_, hq⟩, hall⟩ _ => .field hq hall

theorem delete_spec (hcl : Closed s₀ R K) (bound : ℕ) : Deletes s₀ R K delete bound :=
  fun s _ D o h h₀ hP hK hoD hc _ => by
    refine deleteObject_spec hcl s.created s _ D o h h₀ hP hK hoD hc ?_
    calc (s.liveSet D).ncard ≤ (Finset.range s.created : Set ℕ).ncard :=
          Set.ncard_le_ncard (fun z hz => by simpa using ((h.live z).1 hz.1).1) (Finset.finite_toSet _)
      _ = s.created := by rw [Set.ncard_coe_finset, Finset.card_range]

/-- What an operation deletes had pointers before, and no object that it leaves lost its last pointer. -/
structure Evolves (s s' : RefHeap) : Prop where
  created : s.created ≤ s'.created
  deleted : s.deleted ⊆ s'.deleted
  dead : ∀ o ∈ s'.deleted, o ∈ s.deleted ∨ (s.refs ∅ o).Nonempty
  kept : ∀ o < s.created, s'.referenceCount o = some 0 → s.referenceCount o = some 0

/-- No object gets its first pointer. -/
def NoFirst (s s' : RefHeap) : Prop := ∀ o, (s'.refs ∅ o).Nonempty → (s.refs ∅ o).Nonempty

theorem Evolves.trans {s₁ s₂ s₃ : RefHeap} (h : Evolves s₁ s₂) (hn : NoFirst s₁ s₂)
    (h' : Evolves s₂ s₃) : Evolves s₁ s₃ where
  created := h.created.trans h'.created
  deleted := List.Subset.trans h.deleted h'.deleted
  dead o ho := (h'.dead o ho).elim (h.dead o) fun hr => Or.inr (hn o hr)
  kept o ho hc := h.kept o ho (h'.kept o (ho.trans_le h.created) hc)

theorem release_top (h : s.Counts ∅ ∅) (hne : s.object p ≠ none) (hp : s.Stays p p) :
    ∃ s', s.release delete p = some s' ∧ s'.Counts {p} ∅ ∧
      Drops {q | s.Released p q} {o | s.Dies p o} s s' ∧ Evolves s s' := by
  have hcl := closed_released s p
  obtain ⟨s', hrun, h', hd, hk⟩ := release_spec hcl (delete_spec hcl _) h (.refl s)
    (fun _ hq => absurd hq (Set.notMem_empty _)) (Set.notMem_empty p)
    ⟨.self, fun o i ho => Or.inr (hp o i ho)⟩ hne le_rfl
  refine ⟨s', hrun, insert_empty_eq (β := Set RefPtr) p ▸ h', hd, hd.created.ge, hd.deleted, fun o ho => ?_,
    fun o _ ho => (hk o ho).resolve_left (Set.notMem_empty o)⟩
  refine (hd.dead o ho).imp_right fun hK => ?_
  obtain ⟨⟨q, hq⟩, -⟩ := hK
  exact ⟨q, Set.notMem_empty q, hq⟩

theorem reset_top (h : s.Counts ∅ ∅) (hne : s.object p ≠ none) (hp : s.Stays p p) :
    ∃ s', s.reset p = some s' ∧ s'.Counts ∅ ∅ ∧
      Drops {q | s.Released p q} {o | s.Dies p o} s s' ∧ Evolves s s' ∧ s'.object p = some none := by
  have hcl := closed_released s p
  obtain ⟨s', hrun, h', hd, hk, hnull⟩ := resetWith_spec hcl (delete_spec hcl _) h (.refl s)
    (fun _ hq => absurd hq (Set.notMem_empty _)) (Set.notMem_empty p)
    ⟨.self, fun o i ho => Or.inr (hp o i ho)⟩ hne le_rfl
  refine ⟨s', hrun, h', hd, ⟨hd.created.ge, hd.deleted, fun o ho => ?_,
    fun o _ ho => (hk o ho).resolve_left (Set.notMem_empty o)⟩, hnull⟩
  refine (hd.dead o ho).imp_right fun hK => ?_
  obtain ⟨⟨q, hq⟩, -⟩ := hK
  exact ⟨q, Set.notMem_empty q, hq⟩

theorem Drops.noFirst (h : Drops R K s s') : NoFirst s s' := fun _ ⟨q, hq, hobj⟩ =>
  ⟨q, hq, h.of_object hobj⟩

/-- A pointer that is not in an object that goes stays what it is. -/
theorem Drops.object_of_stays (h : Drops {q | s.Released p q} {o | s.Dies p o} s s') (hq : s.Stays p q)
    (hqp : q ≠ p) : s'.object q = s.object q := by
  have hqR : ¬ s.Released p q := by
    rintro (_ | ⟨ho, hall⟩)
    · exact hqp rfl
    · exact hq _ _ rfl ⟨⟨_, ho⟩, hall⟩
  obtain h1 | ⟨hR, -⟩ | ⟨o, i, rfl, hK, -⟩ := h.object q
  · exact h1
  · exact absurd hR hqR
  · exact absurd hK (hq o i rfl)

/-- A pointer that has let go is set to an object, and counted. -/
theorem Counts.attach (h : s.Counts {p} ∅) (hne : s.object p ≠ none) {v : Option ℕ}
    (hv : ∀ o ∈ v, s.referenceCount o ≠ none) :
    ∃ s', (do let s ← s.setObject p v; s.incrementRefCount p) = some s' ∧ s'.Counts ∅ ∅ ∧
      s'.object = Function.update s.object p (some v) ∧ Evolves s s' := by
  rw [setObject_eq hne, Option.bind_eq_bind, Option.bind_some]
  cases v with
  | none =>
    refine ⟨{ s with object := Function.update s.object p (some none) }, ?_, ?_, rfl, le_rfl,
      List.Subset.refl _, fun _ => Or.inl, fun _ _ => id⟩
    · simp [incrementRefCount]
    · exact Counts.setNull (by rwa [insert_empty_eq]) hne
  | some o =>
    obtain ⟨c, hc⟩ := Option.ne_none_iff_exists'.1 (hv o rfl)
    have hobj : ∀ q z, Function.update s.object p (some (some o)) q = some (some z) ↔
        q = p ∧ z = o ∨ q ≠ p ∧ s.object q = some (some z) := by
      intro q z
      by_cases hq : q = p
      · subst hq; simp [eq_comm]
      · rw [Function.update_of_ne hq]; simp [hq]
    have hex : ∀ q, Function.update s.object p (some (some o)) q ≠ none ↔ s.object q ≠ none := by
      intro q
      by_cases hq : q = p
      · subst hq; simp [hne]
      · rw [Function.update_of_ne hq]
    have hcount : ∀ z, Function.update s.referenceCount o (some (c + 1)) z ≠ none ↔
        s.referenceCount z ≠ none := by
      intro z
      by_cases hz : z = o
      · subst hz; simp [hc]
      · rw [Function.update_of_ne hz]
    have hpos : 0 ≤ c := h.counted o c hc ▸ Int.natCast_nonneg _
    refine ⟨{ s with
        object := Function.update s.object p (some (some o))
        referenceCount := Function.update s.referenceCount o (some (c + 1)) }, ?_,
      ⟨fun z d hd => ?_, fun q _ z hz => ⟨(hcount z).2 ?_, Set.notMem_empty z⟩,
        h.finite.subset fun q => (hex q).1, fun z => (hcount z).trans (h.live z),
        fun z i => (hex _).trans ((h.fields z i).trans (and_congr_left' (hcount z).symm)), h.bound, h.nodup,
        fun z hz => absurd hz (Set.notMem_empty z)⟩, rfl, le_rfl, List.Subset.refl _, fun _ => Or.inl,
      fun z _ hz => ?_⟩
    · simp [incrementRefCount, atomicAdd, hc]
    · dsimp only at hd
      by_cases hz : z = o
      · subst hz
        rw [Function.update_self, Option.some_inj] at hd
        have hrefs : refs { s with
            object := Function.update s.object p (some (some z))
            referenceCount := Function.update s.referenceCount z (some (c + 1)) } ∅ z =
            insert p (s.refs {p} z) := by
          ext q
          simp only [refs, Set.mem_ofPred_eq, Set.mem_insert_iff, Set.mem_singleton_iff, hobj,
            Set.mem_empty_iff_false, not_false_eq_true, true_and, and_true]
        have hnot : p ∉ s.refs {p} z := fun hp => hp.1 rfl
        rw [← hd, hrefs, Set.ncard_insert_of_notMem hnot (h.finite_refs z), h.counted z c hc]
        push_cast
        ring
      · rw [Function.update_of_ne hz] at hd
        rw [h.counted z d hd]
        congr 2
        ext q
        simp only [refs, Set.mem_ofPred_eq, Set.mem_singleton_iff, hobj, Set.mem_empty_iff_false,
          not_false_eq_true, true_and, hz, and_false, false_or]
    · obtain ⟨rfl, rfl⟩ | ⟨hq, hz⟩ := (hobj q z).1 hz
      · exact hv z rfl
      · exact (h.alive q hq z hz).1
    · dsimp only at hz
      by_cases hzo : z = o
      · subst hzo
        rw [Function.update_self, Option.some_inj] at hz
        omega
      · rwa [Function.update_of_ne hzo] at hz

/-! ## The operations -/

/-- Where a pointer is that is not in an object. -/
def IsVariable (p : RefPtr) : Prop := ∀ o i, p ≠ field o i

theorem IsVariable.stays (hp : IsVariable p) (q : RefPtr) : s.Stays q p :=
  fun o i h => absurd h (hp o i)

theorem isVariable_var (v : ℕ) : IsVariable (var v) := nofun

theorem isVariable_argument : IsVariable argument := nofun

theorem isVariable_previous : IsVariable previous := nofun

theorem construct_object_of_ne (hq : q ≠ p) : (s.construct p).object q = s.object q :=
  Function.update_of_ne hq _ _

@[simp] theorem construct_object_self : (s.construct p).object p = some none := Function.update_self _ _ _

theorem construct_object_iff (hp : s.object p = none) :
    (s.construct p).object q = some (some o) ↔ s.object q = some (some o) := by
  by_cases hq : q = p
  · subst hq; simp [hp]
  · rw [construct_object_of_ne hq]

theorem Counts.construct (h : s.Counts ∅ ∅) (hp : s.object p = none) (hvar : IsVariable p) :
    (s.construct p).Counts ∅ ∅ where
  counted o c hc := by
    rw [h.counted o c hc]
    congr 2
    ext q
    exact and_congr_right fun _ => (construct_object_iff hp).symm
  alive q hq o ho := h.alive q hq o ((construct_object_iff hp).1 ho)
  finite := by
    refine (h.finite.insert p).subset fun q hq => ?_
    by_cases hqp : q = p
    · exact Or.inl hqp
    · exact Or.inr fun hn => hq ((construct_object_of_ne hqp).trans hn)
  live := h.live
  fields o i := by
    rw [construct_object_of_ne (hvar o i).symm]
    exact h.fields o i
  bound := h.bound
  nodup := h.nodup
  dying := h.dying

theorem evolves_of_object (f : RefPtr → Option (Option ℕ)) : Evolves s { s with object := f } :=
  ⟨le_rfl, List.Subset.refl _, fun _ => Or.inl, fun _ _ => id⟩

theorem constructRaw_spec (h : s.Counts ∅ ∅) (hp : s.object p = none) (hvar : IsVariable p)
    {v : Option ℕ} (hv : ∀ o ∈ v, s.referenceCount o ≠ none) :
    ∃ s', s.constructRaw p v = some s' ∧ s'.Counts ∅ ∅ ∧ Evolves s s' ∧
      s'.object = Function.update s.object p (some v) := by
  have h₁ : (s.construct p).Counts {p} ∅ := by
    rw [← insert_empty_eq p]
    exact (h.construct hp hvar).insert_null construct_object_self
  obtain ⟨s', hrun, h', hobj, hev⟩ := h₁.attach (by simp) hv
  refine ⟨s', hrun, h', (evolves_of_object _).trans (fun o => ?_) hev,
    hobj.trans (Function.update_idem _ _ _)⟩
  exact fun ⟨q, hq, ho⟩ => ⟨q, hq, (construct_object_iff hp).1 ho⟩

theorem copy_spec (h : s.Counts ∅ ∅) (hp : s.object p = none) (hvar : IsVariable p) {v : Option ℕ}
    (hq : s.object q = some v) :
    ∃ s', s.copy p q = some s' ∧ s'.Counts ∅ ∅ ∧ Evolves s s' ∧ NoFirst s s' ∧
      s'.object = Function.update s.object p (some v) := by
  have hv : ∀ o ∈ v, s.referenceCount o ≠ none := fun o ho =>
    (h.alive q (Set.notMem_empty q) o (by rw [hq, ho])).1
  obtain ⟨s', hrun, h', hev, hobj⟩ := constructRaw_spec h hp hvar hv
  refine ⟨s', by rw [copy, hq]; exact hrun, h', hev, fun o => ?_, hobj⟩
  rintro ⟨l, hl, hlo⟩
  rw [hobj] at hlo
  by_cases hlp : l = p
  · subst hlp
    rw [Function.update_self] at hlo
    exact ⟨q, Set.notMem_empty q, hq.trans hlo⟩
  · exact ⟨l, hl, by rwa [Function.update_of_ne hlp] at hlo⟩

theorem update_update_eq_comp_swap (f : RefPtr → Option (Option ℕ)) (p q : RefPtr) :
    Function.update (Function.update f p (f q)) q (f p) = f ∘ Equiv.swap p q := by
  funext l
  by_cases hlq : l = q
  · subst hlq; simp
  by_cases hlp : l = p
  · subst hlp; simp [hlq]
  simp [hlq, hlp, Equiv.swap_apply_of_ne_of_ne hlp hlq]

theorem swap_spec (h : s.Counts ∅ ∅) (hp : s.object p ≠ none) (hq : s.object q ≠ none) :
    ∃ s', s.swap p q = some s' ∧ s'.Counts ∅ ∅ ∧ Evolves s s' ∧ NoFirst s s' ∧
      s'.object = s.object ∘ Equiv.swap p q := by
  obtain ⟨v, hv⟩ := Option.ne_none_iff_exists'.1 hp
  obtain ⟨w, hw⟩ := Option.ne_none_iff_exists'.1 hq
  set s' : RefHeap := { s with object := s.object ∘ Equiv.swap p q } with hs'
  have hrun : s.swap p q = some s' := by
    rw [hs', ← update_update_eq_comp_swap, hv, hw]
    simp [swap, hv, hw]
  have hrefs : ∀ o, s'.refs ∅ o = Equiv.swap p q '' s.refs ∅ o := by
    intro o
    ext l
    constructor
    · exact fun hl => ⟨Equiv.swap p q l, hl, Equiv.swap_apply_self p q l⟩
    · rintro ⟨l, hl, rfl⟩
      exact ⟨hl.1, (congrArg s.object (Equiv.swap_apply_self p q l)).trans hl.2⟩
  have hex : ∀ l, s'.object l ≠ none ↔ s.object l ≠ none := by
    intro l
    change s.object (Equiv.swap p q l) ≠ none ↔ _
    by_cases hlp : l = p
    · subst hlp; simp [hp, hq]
    by_cases hlq : l = q
    · subst hlq; simp [hp, hq]
    rw [Equiv.swap_apply_of_ne_of_ne hlp hlq]
  refine ⟨s', hrun, ⟨fun o c hc => ?_, fun l _ o ho => h.alive _ (Set.notMem_empty _) o ho,
    h.finite.subset fun l => (hex l).1, h.live, fun o i => (hex _).trans (h.fields o i), h.bound, h.nodup,
    h.dying⟩, evolves_of_object _, fun o ho => ?_, rfl⟩
  · rw [hrefs, Set.ncard_image_of_injective _ (Equiv.injective _)]
    exact h.counted o c hc
  · rw [hrefs] at ho
    exact Set.image_nonempty.1 ho

theorem destroy_spec (h : s.Counts ∅ ∅) (hne : s.object p ≠ none) (hvar : IsVariable p) :
    ∃ s', s.destroy p = some s' ∧ s'.Counts ∅ ∅ ∧ Evolves s s' ∧ NoFirst s s' ∧ s'.object p = none ∧
      ∀ q, IsVariable q → q ≠ p → s'.object q = s.object q := by
  obtain ⟨s₁, hrun, h₁, hd, hev, hnull⟩ := reset_top h hne (hvar.stays p)
  set s' : RefHeap := { s₁ with object := Function.update s₁.object p none } with hs'
  have hobj : ∀ q o, s'.object q = some (some o) ↔ s₁.object q = some (some o) := by
    intro q o
    by_cases hq : q = p
    · subst hq; simp [hs', hnull]
    · simp [hs', Function.update_of_ne hq]
  refine ⟨s', by rw [destroy, hrun]; rfl, ⟨fun o c hc => ?_, fun q hq o ho => ?_, ?_, h₁.live,
    fun o i => ?_, h₁.bound, h₁.nodup, h₁.dying⟩, ⟨hev.created, hev.deleted, hev.dead, hev.kept⟩,
    fun o ⟨q, hq, ho⟩ => hd.noFirst o ⟨q, hq, (hobj q o).1 ho⟩, Function.update_self _ _ _,
    fun q hq hqp => ?_⟩
  · rw [h₁.counted o c hc]
    congr 2
    ext q
    exact and_congr_right fun _ => (hobj q o).symm
  · exact h₁.alive q hq o ((hobj q o).1 ho)
  · refine h₁.finite.subset fun q hq hn => hq ?_
    by_cases hqp : q = p
    · subst hqp; exact Function.update_self _ _ _
    · exact (Function.update_of_ne hqp _ _).trans hn
  · rw [hs']
    simp only [Function.update_of_ne (hvar o i).symm]
    exact h₁.fields o i
  · exact (Function.update_of_ne hqp _ _).trans (hd.object_of_stays (hq.stays p) hqp)

theorem Counts.create (h : s.Counts ∅ ∅) (n : ℕ) : (s.create n).Counts ∅ ∅ := by
  have hdead : s.referenceCount s.created = none := by
    by_contra hne
    exact lt_irrefl _ ((h.live _).1 hne).1
  have hobj : ∀ q o, (s.create n).object q = some (some o) ↔ s.object q = some (some o) := by
    intro q o
    cases q with
    | field o' i =>
      by_cases ho' : o' = s.created
      · subst ho'
        have hnone : s.object (field s.created i) = none := by
          by_contra hne
          exact ((h.fields _ i).1 hne).1 hdead
        simp only [RefHeap.create, if_true, hnone]
        split_ifs <;> simp
      · simp [RefHeap.create, ho']
    | _ => rfl
  have hcount : ∀ o, o ≠ s.created → (s.create n).referenceCount o = s.referenceCount o := fun o ho =>
    Function.update_of_ne ho _ _
  have hself : (s.create n).referenceCount s.created = some 0 := Function.update_self _ _ _
  have hno : ∀ q, s.object q ≠ some (some s.created) := fun q hq =>
    (h.alive q (Set.notMem_empty q) _ hq).1 hdead
  refine ⟨fun o c hc => ?_, fun q hq o ho => ⟨?_, Set.notMem_empty o⟩, ?_, fun o => ?_, fun o i => ?_,
    fun o ho => Nat.lt_succ_of_lt (h.bound o ho), h.nodup, fun o ho => absurd ho (Set.notMem_empty o)⟩
  · have hrefs : (s.create n).refs ∅ o = s.refs ∅ o := by
      ext q
      exact and_congr_right fun _ => hobj q o
    rw [hrefs]
    by_cases ho : o = s.created
    · subst ho
      have hempty : s.refs ∅ s.created = ∅ := Set.eq_empty_of_forall_notMem fun q hq => hno q hq.2
      rw [hself, Option.some_inj] at hc
      rw [hempty, Set.ncard_empty, ← hc]
      rfl
    · rw [hcount o ho] at hc
      exact h.counted o c hc
  · have ho' := (hobj q o).1 ho
    rw [hcount o fun heq => hno q (heq ▸ ho')]
    exact (h.alive q hq o ho').1
  · refine (h.finite.union ((Set.finite_lt_nat n).image (field s.created))).subset fun q hq => ?_
    cases q with
    | field o i =>
      by_cases ho : o = s.created
      · subst ho
        by_cases hi : i < n
        · exact Or.inr ⟨i, hi, rfl⟩
        · exact absurd (by simp [RefHeap.create, hi]) hq
      · exact Or.inl fun hn => hq (by simp [RefHeap.create, ho, hn])
    | _ => exact Or.inl hq
  · by_cases ho : o = s.created
    · subst ho
      have hnd : s.created ∉ s.deleted := fun hd => lt_irrefl _ (h.bound _ hd)
      simp [RefHeap.create, hnd]
    · rw [hcount o ho, h.live]
      simp only [RefHeap.create]
      constructor
      · exact fun ⟨h1, h2⟩ => ⟨by omega, h2⟩
      · exact fun ⟨h1, h2⟩ => ⟨by omega, h2⟩
  · by_cases ho : o = s.created
    · subst ho
      simp [RefHeap.create]
    · rw [hcount o ho]
      simpa [RefHeap.create, ho] using h.fields o i

theorem create_evolves (s : RefHeap) (n : ℕ) : Evolves s (s.create n) :=
  ⟨Nat.le_succ _, List.Subset.refl _, fun _ => Or.inl, fun _ ho hc =>
    (Function.update_of_ne ho.ne _ _).symm.trans hc⟩

theorem assign_spec (h : s.Counts ∅ ∅) (hp : s.object p ≠ none) (hq : s.object q ≠ none)
    (hsafe : s.object p = s.object q ∨ s.Stays p p ∧ s.Stays p q) :
    ∃ s', s.assign p q = some s' ∧ s'.Counts ∅ ∅ ∧ Evolves s s' ∧ s'.object p = s.object q ∧
      ∀ l, IsVariable l → l ≠ p → s'.object l = s.object l := by
  obtain ⟨v, hv⟩ := Option.ne_none_iff_exists'.1 hp
  obtain ⟨w, hw⟩ := Option.ne_none_iff_exists'.1 hq
  by_cases hvw : v = w
  · subst hvw
    exact ⟨s, by simp [assign, hv, hw], h, ⟨le_rfl, List.Subset.refl _, fun _ => Or.inl, fun _ _ => id⟩,
      hv.trans hw.symm, fun _ _ _ => rfl⟩
  have hne : s.object p ≠ s.object q := by simpa [hv, hw] using hvw
  have hqp : q ≠ p := fun heq => hne (congrArg s.object heq.symm)
  obtain ⟨hpp, hpq⟩ := hsafe.resolve_left hne
  obtain ⟨s₁, hrun₁, h₁, hd, hev⟩ := release_top h hp hpp
  have hw₁ : s₁.object q = some w := (hd.object_of_stays hpq hqp).trans hw
  have hp₁ : s₁.object p ≠ none :=
    hd.object_ne_none h h₁ ⟨.self, fun o i ho => Or.inr (hpp o i ho)⟩ hp
  obtain ⟨s', hrun', h', hobj, hev'⟩ := h₁.attach hp₁ (v := w) fun o ho =>
    (h₁.alive q hqp o (by rw [hw₁, ho])).1
  refine ⟨s', ?_, h', hev.trans hd.noFirst hev', by rw [hobj, Function.update_self, hw], fun l hl hlp => ?_⟩
  · simp only [assign, hv, hw, Option.bind_eq_bind, Option.bind_some, if_neg hvw, hrun₁, hw₁]
    exact hrun'
  · rw [hobj, Function.update_of_ne hlp]
    exact hd.object_of_stays (hl.stays p) hlp

theorem assignRaw_spec (h : s.Counts ∅ ∅) (hp : s.object p ≠ none) (hpp : s.Stays p p) {v : Option ℕ}
    (hv : ∀ o ∈ v, s.referenceCount o ≠ none) (hsafe : ∀ o ∈ v, ¬ s.Dies p o) :
    ∃ s', s.assignRaw p v = some s' ∧ s'.Counts ∅ ∅ ∧ Evolves s s' ∧ s'.object p = some v ∧
      ∀ l, IsVariable l → l ≠ p → s'.object l = s.object l := by
  obtain ⟨s₁, hrun₁, h₁, hd, hev⟩ := release_top h hp hpp
  have hp₁ : s₁.object p ≠ none :=
    hd.object_ne_none h h₁ ⟨.self, fun o i ho => Or.inr (hpp o i ho)⟩ hp
  have hv₁ : ∀ o ∈ v, s₁.referenceCount o ≠ none := fun o ho => by
    obtain ⟨hlt, hnd⟩ := (h.live o).1 (hv o ho)
    exact (h₁.live o).2 ⟨hd.created ▸ hlt, fun hmem => (hd.dead o hmem).elim hnd (hsafe o ho)⟩
  obtain ⟨s', hrun', h', hobj, hev'⟩ := h₁.attach hp₁ hv₁
  refine ⟨s', ?_, h', hev.trans hd.noFirst hev', by rw [hobj, Function.update_self], fun l hl hlp => ?_⟩
  · rw [assignRaw, hrun₁]
    exact hrun'
  · rw [hobj, Function.update_of_ne hlp]
    exact hd.object_of_stays (hl.stays p) hlp

/-- What `atomic_load` does is a copy. -/
theorem atomicLoad_eq (h : s.Counts ∅ ∅) (hp : s.object p ≠ none) (hq : s.object q = none) :
    s.atomicLoad p q = s.copy q p := by
  obtain ⟨v, hv⟩ := Option.ne_none_iff_exists'.1 hp
  have hpq : p ≠ q := by
    rintro rfl
    exact hp hq
  cases v with
  | none =>
    simp [atomicLoad, copy, constructRaw, incrementRefCount, setObject, RefHeap.construct, hv, hpq]
  | some o =>
    obtain ⟨c, hc⟩ := Option.ne_none_iff_exists'.1 (h.alive p (Set.notMem_empty p) o hv).1
    simp [atomicLoad, copy, constructRaw, incrementRefCount, setObject, atomicAdd, RefHeap.construct, hv,
      hpq, hc]

/-- What `atomic_exchange` does is a copy and a swap. -/
theorem atomicExchange_eq (h : s.Counts ∅ ∅) {r : RefPtr} (hp : s.object p ≠ none)
    (hr : s.object r ≠ none) (hq : s.object q = none) :
    s.atomicExchange p r q = (s.copy q r).bind fun s => s.swap p q := by
  obtain ⟨v, hv⟩ := Option.ne_none_iff_exists'.1 hp
  obtain ⟨w, hw⟩ := Option.ne_none_iff_exists'.1 hr
  have hpq : p ≠ q := by
    rintro rfl
    exact hp hq
  cases w with
  | none =>
    simp [atomicExchange, copy, constructRaw, incrementRefCount, setObject, RefHeap.construct, swap, hv, hw,
      hpq, Function.update_comm hpq]
  | some o =>
    obtain ⟨c, hc⟩ := Option.ne_none_iff_exists'.1 (h.alive r (Set.notMem_empty r) o hw).1
    simp [atomicExchange, copy, constructRaw, incrementRefCount, setObject, atomicAdd, RefHeap.construct,
      swap, hv, hw, hpq, hc, Function.update_comm hpq]

theorem atomicExchange_spec (h : s.Counts ∅ ∅) {r : RefPtr} (hp : s.object p ≠ none)
    (hr : s.object r ≠ none) (hq : s.object q = none) (hvar : IsVariable q) :
    ∃ s', s.atomicExchange p r q = some s' ∧ s'.Counts ∅ ∅ ∧ Evolves s s' ∧ NoFirst s s' ∧
      s'.object p = s.object r ∧ s'.object q = s.object p ∧
      ∀ l, l ≠ p → l ≠ q → s'.object l = s.object l := by
  obtain ⟨w, hw⟩ := Option.ne_none_iff_exists'.1 hr
  have hpq : p ≠ q := by
    rintro rfl
    exact hp hq
  obtain ⟨s₁, hrun₁, h₁, hev₁, hn₁, hobj₁⟩ := copy_spec h hq hvar hw
  have hp₁ : s₁.object p = s.object p := by rw [hobj₁, Function.update_of_ne hpq]
  have hq₁ : s₁.object q = some w := by rw [hobj₁, Function.update_self]
  obtain ⟨s', hrun', h', hev', hn', hobj'⟩ := swap_spec (q := q) h₁ (hp₁ ▸ hp) (by simp [hq₁])
  refine ⟨s', by rw [atomicExchange_eq h hp hr hq, hrun₁]; exact hrun', h', hev₁.trans hn₁ hev',
    fun o ho => hn₁ o (hn' o ho), ?_, ?_, fun l hlp hlq => ?_⟩
  · rw [hobj', Function.comp_apply, Equiv.swap_apply_left, hq₁, hw]
  · rw [hobj', Function.comp_apply, Equiv.swap_apply_right, hp₁]
  · rw [hobj', Function.comp_apply, Equiv.swap_apply_of_ne_of_ne hlp hlq, hobj₁,
      Function.update_of_ne hlq]

theorem atomicStore_spec (h : s.Counts ∅ ∅) (harg : s.object argument = none)
    (hprev : s.object previous = none) {p : Option RefPtr} (hp : ∀ l ∈ p, s.object l ≠ none)
    (hq : s.object q ≠ none) :
    ∃ s', s.atomicStore p q = some s' ∧ s'.Counts ∅ ∅ ∧ Evolves s s' ∧
      s'.object argument = none ∧ s'.object previous = none := by
  obtain ⟨v, hv⟩ := Option.ne_none_iff_exists'.1 hq
  obtain ⟨s₁, hrun₁, h₁, hev₁, hn₁, hobj₁⟩ := copy_spec h harg isVariable_argument hv
  have hprev₁ : s₁.object previous = none := by rw [hobj₁]; exact hprev
  have harg₁ : s₁.object argument ≠ none := by simp [hobj₁]
  cases p with
  | none =>
    obtain ⟨s', hrun', h', hev', -, hnone, hrest⟩ := destroy_spec h₁ harg₁ isVariable_argument
    refine ⟨s', by rw [atomicStore, hrun₁]; exact hrun', h', hev₁.trans hn₁ hev', hnone, ?_⟩
    rw [hrest previous isVariable_previous nofun, hprev₁]
  | some p =>
    have hne := hp p rfl
    have hpa : p ≠ argument := fun heq => hne (heq ▸ harg)
    have hp₁ : s₁.object p ≠ none := by rwa [hobj₁, Function.update_of_ne hpa]
    obtain ⟨s₂, hrun₂, h₂, hev₂, hn₂, -, hprev₂, hrest₂⟩ :=
      atomicExchange_spec h₁ hp₁ harg₁ hprev₁ isVariable_previous
    obtain ⟨s₃, hrun₃, h₃, hev₃, hn₃, hnone₃, hrest₃⟩ :=
      destroy_spec h₂ (hprev₂ ▸ hp₁) isVariable_previous
    have harg₃ : s₃.object argument ≠ none := by
      rw [hrest₃ argument isVariable_argument nofun, hrest₂ argument hpa.symm nofun]
      exact harg₁
    obtain ⟨s', hrun', h', hev', -, hnone, hrest⟩ := destroy_spec h₃ harg₃ isVariable_argument
    refine ⟨s', ?_, h', hev₁.trans hn₁ (hev₂.trans hn₂ (hev₃.trans hn₃ hev')), hnone, ?_⟩
    · simp only [atomicStore, hrun₁, hrun₂, hrun₃, Option.bind_eq_bind, Option.bind_some, hrun']
    · rw [hrest previous isVariable_previous nofun, hnone₃]

/-- `atomic_exchange` of a null pointer to a pointer, and of a pointer. -/
theorem exchange_spec (h : s.Counts ∅ ∅) (harg : s.object argument = none)
    (hprev : s.object previous = none) {v : ℕ} (hv : s.object (var v) = none) {p : Option RefPtr}
    (hp : ∀ l ∈ p, s.object l ≠ none) (hq : s.object q ≠ none) :
    ∃ s', s.step (.atomicExchange v p q) = some s' ∧ s'.Counts ∅ ∅ ∧ Evolves s s' ∧
      s'.object argument = none ∧ s'.object previous = none := by
  obtain ⟨w, hw⟩ := Option.ne_none_iff_exists'.1 hq
  obtain ⟨s₁, hrun₁, h₁, hev₁, hn₁, hobj₁⟩ := copy_spec h harg isVariable_argument hw
  have hprev₁ : s₁.object previous = none := by rw [hobj₁]; exact hprev
  have harg₁ : s₁.object argument ≠ none := by simp [hobj₁]
  have hv₁ : s₁.object (var v) = none := by rw [hobj₁]; exact hv
  have key : ∀ s₂, s₂.Counts ∅ ∅ → Evolves s₁ s₂ → NoFirst s₁ s₂ → s₂.object argument ≠ none →
      s₂.object previous = none → ∃ s', s₂.destroy argument = some s' ∧ s'.Counts ∅ ∅ ∧ Evolves s s' ∧
        s'.object argument = none ∧ s'.object previous = none := by
    intro s₂ h₂ hev₂ hn₂ harg₂ hprev₂
    obtain ⟨s', hrun', h', hev', -, hnone, hrest⟩ := destroy_spec h₂ harg₂ isVariable_argument
    refine ⟨s', hrun', h', hev₁.trans hn₁ (hev₂.trans hn₂ hev'), hnone, ?_⟩
    rw [hrest previous isVariable_previous nofun, hprev₂]
  cases p with
  | none =>
    obtain ⟨s', hrun', h'⟩ := key _ (h₁.construct hv₁ (isVariable_var v)) (evolves_of_object _)
      (fun o ⟨l, hl, hlo⟩ => ⟨l, hl, (construct_object_iff hv₁).1 hlo⟩)
      (by rwa [construct_object_of_ne (by simp)]) (by rwa [construct_object_of_ne (by simp)])
    exact ⟨s', by rw [step, hrun₁]; exact hrun', h'⟩
  | some p =>
    have hne := hp p rfl
    have hpa : p ≠ argument := fun heq => hne (heq ▸ harg)
    have hpp : p ≠ previous := fun heq => hne (heq ▸ hprev)
    have hp₁ : s₁.object p ≠ none := by rwa [hobj₁, Function.update_of_ne hpa]
    obtain ⟨s₂, hrun₂, h₂, hev₂, hn₂, -, -, hrest₂⟩ :=
      atomicExchange_spec h₁ hp₁ harg₁ hv₁ (isVariable_var v)
    obtain ⟨s', hrun', h'⟩ := key s₂ h₂ hev₂ hn₂ (by rwa [hrest₂ argument hpa.symm nofun])
      (by rwa [hrest₂ previous hpp.symm nofun])
    exact ⟨s', by simp only [step, hrun₁, hrun₂, Option.bind_eq_bind, Option.bind_some, hrun'], h'⟩

/-! ## Programs -/

/-- Every object counts the pointers to it, and no pointer points to an object that was deleted. -/
structure Owned (s : RefHeap) : Prop where
  counted : ∀ o < s.created, o ∉ s.deleted →
    s.referenceCount o = some ({p | s.object p = some (some o)}.ncard : ℤ)
  target : ∀ p o, s.object p = some (some o) → o < s.created ∧ o ∉ s.deleted
  finite : {p | s.object p ≠ none}.Finite
  deleted : ∀ o ∈ s.deleted, o < s.created ∧ s.referenceCount o = none
  once : s.deleted.Nodup

theorem Owned.finite_pointers (h : s.Owned) (o : ℕ) : {p | s.object p = some (some o)}.Finite :=
  h.finite.subset fun p hp hn => by cases hn.symm.trans hp

/-- An operation deletes the objects that had a pointer and have none any more. -/
def DeletesLast (s s' : RefHeap) : Prop :=
  s.deleted ⊆ s'.deleted ∧ ∀ o < s.created, o ∉ s.deleted →
    (o ∈ s'.deleted ↔ (∃ p, s.object p = some (some o)) ∧ ∀ p, s'.object p ≠ some (some o))

/-- A pointer that is assigned to points to what the other one did. -/
def Assigned (s : RefHeap) (op : Op) (s' : RefHeap) : Prop :=
  match op with
  | .assign p rhs => s'.object p = s.object rhs
  | .assignRaw p o => s'.object p = some o
  | .constructRaw v o => s'.object (var v) = some o
  | .copy v rhs => s'.object (var v) = s.object rhs
  | .atomicLoad v (some p) => s'.object (var v) = s.object p
  | .swap p rhs => s'.object p = s.object rhs ∧ s'.object rhs = s.object p
  | .reset p => s'.object p = some none
  | _ => True

/-- Between operations no destructor is running, and the pointers of `atomic_store` are not there. -/
structure Inv (s : RefHeap) : Prop where
  counts : s.Counts ∅ ∅
  argument : s.object argument = none
  previous : s.object previous = none

theorem Inv.owned (h : s.Inv) : s.Owned where
  counted o hlt hnd := by
    obtain ⟨c, hc⟩ := Option.ne_none_iff_exists'.1 ((h.counts.live o).2 ⟨hlt, hnd⟩)
    have hrefs : s.refs ∅ o = {p | s.object p = some (some o)} := by
      ext p
      simp [refs]
    rw [hc, h.counts.counted o c hc, hrefs]
  target p o hp := (h.counts.live o).1 (h.counts.alive p (Set.notMem_empty p) o hp).1
  finite := h.counts.finite
  deleted o ho := by
    refine ⟨h.counts.bound o ho, ?_⟩
    by_contra hne
    exact ((h.counts.live o).1 hne).2 ho
  once := h.counts.nodup

theorem Evolves.deletesLast (hev : Evolves s s') (h : s.Inv) (h' : s'.Inv) : DeletesLast s s' := by
  refine ⟨hev.deleted, fun o hlt hnd => ⟨fun hd => ⟨?_, fun p hp => ?_⟩, fun ⟨⟨p, hp⟩, hnone⟩ => ?_⟩⟩
  · obtain ⟨p, -, hp⟩ := (hev.dead o hd).resolve_left hnd
    exact ⟨p, hp⟩
  · exact (h'.owned.target p o hp).2 hd
  · by_contra hd
    have hzero : {p | s'.object p = some (some o)} = ∅ := Set.eq_empty_of_forall_notMem hnone
    have hc' := h'.owned.counted o (hlt.trans_le hev.created) hd
    rw [hzero, Set.ncard_empty] at hc'
    have hc := (h.owned.counted o hlt hnd).symm.trans (hev.kept o hlt hc')
    have hpos : 0 < {p | s.object p = some (some o)}.ncard :=
      (Set.ncard_pos (h.owned.finite_pointers o)).2 ⟨p, hp⟩
    rw [Option.some_inj] at hc
    omega

/-- **One operation.** -/
theorem step_spec (h : s.Inv) (op : Op) (hlegal : s.Legal op) (hsafe : s.Safe op) :
    ∃ s', s.step op = some s' ∧ s'.Inv ∧ Evolves s s' ∧ Assigned s op s' := by
  cases op with
  | create n => exact ⟨_, rfl, ⟨h.counts.create n, h.argument, h.previous⟩, create_evolves s n, trivial⟩
  | construct v =>
    exact ⟨_, rfl, ⟨h.counts.construct hlegal (isVariable_var v), h.argument, h.previous⟩,
      evolves_of_object _, trivial⟩
  | constructRaw v o =>
    obtain ⟨s', hrun, h', hev, hobj⟩ := constructRaw_spec h.counts hlegal.1 (isVariable_var v) hlegal.2
    refine ⟨s', hrun, ⟨h', ?_, ?_⟩, hev, ?_⟩
    · rw [hobj]; exact h.argument
    · rw [hobj]; exact h.previous
    · rw [Assigned, hobj, Function.update_self]
  | copy v rhs =>
    obtain ⟨w, hw⟩ := Option.ne_none_iff_exists'.1 hlegal.2
    obtain ⟨s', hrun, h', hev, -, hobj⟩ := copy_spec h.counts hlegal.1 (isVariable_var v) hw
    refine ⟨s', hrun, ⟨h', ?_, ?_⟩, hev, ?_⟩
    · rw [hobj]; exact h.argument
    · rw [hobj]; exact h.previous
    · rw [Assigned, hobj, Function.update_self, hw]
  | assign p rhs =>
    obtain ⟨s', hrun, h', hev, hobj, hrest⟩ := assign_spec h.counts hlegal.1 hlegal.2 hsafe
    refine ⟨s', hrun, ⟨h', ?_, ?_⟩, hev, hobj⟩
    · rw [hrest _ isVariable_argument fun heq => hlegal.1 (heq ▸ h.argument), h.argument]
    · rw [hrest _ isVariable_previous fun heq => hlegal.1 (heq ▸ h.previous), h.previous]
  | assignRaw p o =>
    obtain ⟨s', hrun, h', hev, hobj, hrest⟩ := assignRaw_spec h.counts hlegal.1 hsafe.1 hlegal.2 hsafe.2
    refine ⟨s', hrun, ⟨h', ?_, ?_⟩, hev, hobj⟩
    · rw [hrest _ isVariable_argument fun heq => hlegal.1 (heq ▸ h.argument), h.argument]
    · rw [hrest _ isVariable_previous fun heq => hlegal.1 (heq ▸ h.previous), h.previous]
  | reset p =>
    obtain ⟨s', hrun, h', hd, hev, hnull⟩ := reset_top h.counts hlegal hsafe
    refine ⟨s', hrun, ⟨h', ?_, ?_⟩, hev, hnull⟩
    · rw [hd.object_of_stays (isVariable_argument.stays p) fun heq => hlegal (heq ▸ h.argument), h.argument]
    · rw [hd.object_of_stays (isVariable_previous.stays p) fun heq => hlegal (heq ▸ h.previous), h.previous]
  | swap p rhs =>
    obtain ⟨s', hrun, h', hev, -, hobj⟩ := swap_spec h.counts hlegal.1 hlegal.2
    have hother : ∀ l, s.object l = none → s'.object l = none := by
      intro l hl
      rw [hobj, Function.comp_apply, Equiv.swap_apply_of_ne_of_ne, hl]
      · exact fun heq => hlegal.1 (heq ▸ hl)
      · exact fun heq => hlegal.2 (heq ▸ hl)
    refine ⟨s', hrun, ⟨h', hother _ h.argument, hother _ h.previous⟩, hev, ?_, ?_⟩
    · rw [hobj, Function.comp_apply, Equiv.swap_apply_left]
    · rw [hobj, Function.comp_apply, Equiv.swap_apply_right]
  | destroy v =>
    obtain ⟨s', hrun, h', hev, -, -, hrest⟩ := destroy_spec h.counts hlegal (isVariable_var v)
    refine ⟨s', hrun, ⟨h', ?_, ?_⟩, hev, trivial⟩
    · rw [hrest _ isVariable_argument nofun, h.argument]
    · rw [hrest _ isVariable_previous nofun, h.previous]
  | atomicLoad v p =>
    cases p with
    | none =>
      exact ⟨_, rfl, ⟨h.counts.construct hlegal.1 (isVariable_var v), h.argument, h.previous⟩,
        evolves_of_object _, trivial⟩
    | some p =>
      have hp := hlegal.2 p rfl
      obtain ⟨w, hw⟩ := Option.ne_none_iff_exists'.1 hp
      obtain ⟨s', hrun, h', hev, -, hobj⟩ := copy_spec h.counts hlegal.1 (isVariable_var v) hw
      refine ⟨s', by rw [step, atomicLoad_eq h.counts hp hlegal.1, hrun], ⟨h', ?_, ?_⟩, hev, ?_⟩
      · rw [hobj]; exact h.argument
      · rw [hobj]; exact h.previous
      · rw [Assigned, hobj, Function.update_self, hw]
  | atomicStore p rhs =>
    obtain ⟨s', hrun, h', hev, harg, hprev⟩ :=
      atomicStore_spec h.counts h.argument h.previous hlegal.1 hlegal.2
    exact ⟨s', hrun, ⟨h', harg, hprev⟩, hev, trivial⟩
  | atomicExchange v p rhs =>
    obtain ⟨s', hrun, h', hev, harg, hprev⟩ :=
      exchange_spec h.counts h.argument h.previous hlegal.1 hlegal.2.1 hlegal.2.2
    exact ⟨s', hrun, ⟨h', harg, hprev⟩, hev, trivial⟩

/-- Every operation of the program is legal and safe when its turn comes. -/
def Permitted (s : RefHeap) : List Op → Prop
  | [] => True
  | op :: ops => s.Legal op ∧ s.Safe op ∧ ∀ s', s.step op = some s' → Permitted s' ops

theorem run_inv : ∀ (ops : List Op) {s : RefHeap}, s.Inv → s.Permitted ops →
    ∃ s', s.run ops = some s' ∧ s'.Inv
  | [], s, h, _ => ⟨s, rfl, h⟩
  | op :: ops, s, h, ⟨hlegal, hsafe, hrest⟩ => by
    obtain ⟨s₁, hrun₁, h₁, -⟩ := step_spec h op hlegal hsafe
    obtain ⟨s', hrun', h'⟩ := run_inv ops h₁ (hrest s₁ hrun₁)
    exact ⟨s', by rw [run, hrun₁]; exact hrun', h'⟩

theorem init_inv : init.Inv where
  counts := by
    refine ⟨nofun, nofun, ?_, fun o => by simp [init], fun o i => by simp [init], nofun, List.nodup_nil,
      nofun⟩
    simp [init]
  argument := rfl
  previous := rfl

/-- **Ownership.** In a program whose operations are safe, after every operation each object counts the
pointers to it and no pointer points to an object that was deleted; the next operation does not access an
object that was deleted, it deletes the objects that lose their last pointer, and what is assigned is
what the right-hand side designated. -/
theorem run_ownership (ops : List Op) (hops : init.Permitted ops) :
    ∃ s, init.run ops = some s ∧ s.Owned ∧ ∀ op, s.Legal op → s.Safe op →
      ∃ s', s.step op = some s' ∧ s'.Owned ∧ DeletesLast s s' ∧ Assigned s op s' := by
  obtain ⟨s, hrun, h⟩ := run_inv ops init_inv hops
  refine ⟨s, hrun, h.owned, fun op hlegal hsafe => ?_⟩
  obtain ⟨s', hstep, h', hev, hass⟩ := step_spec h op hlegal hsafe
  exact ⟨s', hstep, h'.owned, hev.deletesLast h h', hass⟩

/-- A variable points to an object with a field that points to another one. -/
def linked : List Op := [.create 1, .create 0, .constructRaw 0 (some 0), .assignRaw (field 0 0) (some 1)]

theorem permitted_linked {ops : List Op} (h : ∀ s, init.run linked = some s → s.Permitted ops) :
    init.Permitted (linked ++ ops) := by
  refine ⟨trivial, trivial, ?_⟩
  rintro _ ⟨⟩
  refine ⟨trivial, trivial, ?_⟩
  rintro _ ⟨⟩
  refine ⟨⟨rfl, by simp [RefHeap.create, init]⟩, trivial, ?_⟩
  rintro _ ⟨⟩
  refine ⟨⟨nofun, by simp [RefHeap.create, RefHeap.construct, init]⟩, ⟨?_, ?_⟩, ?_⟩
  · rintro _ _ ⟨⟩ ⟨-, hall⟩
    cases hall (var 0) rfl
  · rintro _ ⟨⟩ ⟨⟨q, hq⟩, -⟩
    revert hq
    cases q with
    | var v =>
      simp only [init, RefHeap.create, RefHeap.construct, Function.update_apply]
      split_ifs <;> simp
    | _ => simp [init, RefHeap.create, RefHeap.construct]
  · rintro _ ⟨⟩
    exact h _ rfl

/-- An object whose only pointer is assigned to is deleted. -/
theorem run_ownership_assign : ∃ s, init.run (linked ++ [.copy 1 (field 0 0)]) = some s ∧ s.Owned ∧
    ∃ s', s.step (.assign (var 0) (var 1)) = some s' ∧ s'.Owned ∧ DeletesLast s s' ∧
      s'.object (var 0) = s.object (var 1) := by
  have hops : init.Permitted (linked ++ [.copy 1 (field 0 0)]) := permitted_linked fun s hs => by
    cases hs
    exact ⟨⟨rfl, nofun⟩, trivial, fun _ _ => trivial⟩
  obtain ⟨s, hrun, hs, hstep⟩ := run_ownership _ hops
  refine ⟨s, hrun, hs, ?_⟩
  cases hrun
  exact hstep (.assign (var 0) (var 1)) ⟨nofun, nofun⟩
    (Or.inr ⟨(isVariable_var 0).stays _, (isVariable_var 1).stays _⟩)

/-- `p = p->next`, where `p` is the only pointer to its object, reads a field of the deleted object. -/
theorem assign_field_faults : ∃ s, init.run linked = some s ∧ s.Owned ∧
    s.Legal (.assign (var 0) (field 0 0)) ∧ s.step (.assign (var 0) (field 0 0)) = none := by
  have hops : init.Permitted (linked ++ []) := permitted_linked fun _ _ => trivial
  obtain ⟨s, hrun, h⟩ := run_inv linked init_inv hops
  refine ⟨s, hrun, h.owned, ?_⟩
  cases hrun
  exact ⟨⟨nofun, nofun⟩, rfl⟩

end RefHeap

end Miosix
