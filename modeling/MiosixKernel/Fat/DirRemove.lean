import MiosixKernel.Fat.DirRegister

/-!
# Removing an object from a directory

* `OpenDir.Marked`: some entries are marked as deleted, and nothing else is changed;
* `removeLoop_marks`, `dirRemove_marks`: the entries up to the one with the short name;
* **`dirRemove_removes`**: the object that was found is gone, and the others are still there.
-/

namespace Miosix

open Lib Volume DirTable

namespace OpenDir

variable {d d' d'' : OpenDir} {T : DirTable} {others : List (List ℕ)} {i j : ℕ} {q : List ℕ}

/-- The entries from `j` to `i` are marked as deleted, and nothing else that is seen is changed. -/
structure Marked (T : DirTable) (d d' : OpenDir) (j i : ℕ) : Prop where
  kept : Kept d d'
  mark : ∀ k, j ≤ k → k ≤ i → d'.fs.seen (T.addr (32 * k)) = deletedMark
  other : ∀ a, d.fs.Plain (a / 512) → (∀ k, j ≤ k → k ≤ i → a ≠ T.addr (32 * k)) → d'.fs.seen a = d.fs.seen a

theorem Marked.after (hs : Same d d') (hv : d.fs.Valid) (hm : Marked T d' d'' j i) : Marked T d d'' j i :=
  ⟨(hs.kept hv).trans hm.kept, hm.mark, fun a ha hne =>
    (hm.other a (by rw [hs.shows.vol]; exact ha) hne).trans (hs.shows.seen a ha)⟩

/-- The next entries are marked as well. -/
theorem Marked.trans (h : d.Lies T others) (hi : i < T.slots) (hj : j ≤ i) (hm : Marked T d d' j j)
    (hm' : Marked T d' d'' (j + 1) i) : Marked T d d'' j i := by
  refine ⟨hm.kept.trans hm'.kept, fun k hge hle => ?_, fun a ha hne => ?_⟩
  · rcases Nat.eq_or_lt_of_le hge with rfl | hlt
    · have hplain : d'.fs.Plain (T.addr (32 * j) / 512) := by
        rw [hm.kept.vol, h.vol]
        exact (sect_plain h.placed (lt_of_le_of_lt hj hi)).1
      rw [hm'.other _ hplain fun k hk hki heq => ?_]
      · exact hm.mark j le_rfl le_rfl
      · have := addr_inj (k := 0) h.placed (lt_of_le_of_lt hki hi) (lt_of_le_of_lt hj hi) (by decide) heq
        omega
    · exact hm'.mark k hlt hle
  · rw [hm'.other a (by rw [hm.kept.vol]; exact ha) fun k hk hki => hne k (by omega) hki]
    exact hm.other a ha fun k hk hki => hne k hk (by omega)

/-- One entry is marked. -/
theorem edit_marks (h : d.Lies T others) (hat : T.At d.dp j) (hj : j < T.slots) (hwin : d.fs.winsect = d.dp.sect)
    (hentry : d.entry = T.slot d.fs.seen j) :
    ∃ d', edit (fun dir => store dir 0 [deletedMark]) d = some (.ok (), d') ∧ d'.dp = d.dp ∧ Marked T d d' j j := by
  obtain ⟨fs', hedit, hkept, hstore⟩ := edit_seen (fun dir => store dir 0 [deletedMark]) h hat hj hwin
  have hseen : fs'.seen = Function.update d.fs.seen (T.addr (32 * j)) deletedMark := by
    rw [hstore]
    funext x
    by_cases hx : T.addr (32 * j) ≤ x ∧ x < T.addr (32 * j) + 32
    · rw [store_inside hx.1 (by rw [length_load]; exact hx.2), load_getD (by omega)]
      by_cases he : x = T.addr (32 * j)
      · rw [he, Function.update_self, Nat.sub_self, store_inside le_rfl (by decide)]
        rfl
      · rw [Function.update_of_ne he, store_outside (by simp only [List.length_singleton]; omega), hentry, DirTable.slot]
        unfold entryAt
        rw [if_pos (by omega), Nat.add_sub_cancel' hx.1]
    · rw [store_outside (by rw [length_load]; omega), Function.update_of_ne (by omega)]
  refine ⟨{ d with fs := fs' }, hedit, rfl, hkept, fun k hge hle => ?_, fun a _ hne => ?_⟩
  · obtain rfl : k = j := by omega
    rw [hseen, Function.update_self]
  · rw [hseen, Function.update_of_ne (hne j le_rfl le_rfl)]

/-- What is only looked at does not change what is marked. -/
theorem Marked.before (h : d.Lies T others) (hi : i < T.slots) (hm : Marked T d d' j i) (hs : Same d' d'') :
    Marked T d d'' j i := by
  refine ⟨hm.kept.trans (hs.kept hm.kept.valid), fun k hge hle => ?_, fun a ha hne => ?_⟩
  · have hplain : d'.fs.Plain (T.addr (32 * k) / 512) := by
      rw [hm.kept.vol, h.vol]
      exact (sect_plain h.placed (lt_of_le_of_lt hle hi)).1
    rw [hs.shows.seen _ hplain]
    exact hm.mark k hge hle
  · rw [hs.shows.seen a (by rw [hm.kept.vol]; exact ha)]
    exact hm.other a ha hne

theorem removeLoop_marks (fuel : ℕ) (h : d.Lies T others) (hf : d.fs.drv.faults = []) (hat : T.At d.dp j) (hji : j ≤ i)
    (hi : i < T.slots) (hfuel : i < j + fuel) :
    ∃ d', removeLoop i fuel d = some (.ok (), d') ∧ Marked T d d' j i := by
  induction fuel generalizing d j with
  | zero => omega
  | succ fuel ih =>
    have hj := lt_of_le_of_lt hji hi
    obtain ⟨r, d₁, hwindow, hs₁, rfl, hdp, hwin, hentry⟩ := (toWindow_looks h (Drive.failures_of_nil hf) hat hj).result
    have h₁ := h.same hs₁
    rw [← h.slot hs₁ hj] at hentry
    rw [← hdp] at hwin hat
    obtain ⟨d₂, hedit, hdp₂, hm₂⟩ := edit_marks h₁ hat hj hwin hentry
    have hm := hm₂.after hs₁ h.alloc.valid
    have h₂ := hm.kept.lies h
    rw [← hdp₂] at hat
    unfold removeLoop
    rw [Code.bind_ok hwindow, Code.bind_ok hedit, Code.bind_ok (show Code.read d₂ = some (.ok d₂, d₂) from rfl), hat.index]
    rcases Nat.eq_or_lt_of_le hji with rfl | hlt
    · rw [if_pos le_rfl]
      exact ⟨d₂, rfl, hm⟩
    · rw [if_neg (by omega)]
      have hf₂ := hm.kept.faults hf
      obtain ⟨r, d₃, hnext, hs₃, rfl, hat₃, -⟩ :=
        (dirNext_looks h₂ (Drive.failures_of_nil hf₂) hat false (by omega)).result
      obtain ⟨d', hloop, hm'⟩ := ih (h₂.same hs₃) (hs₃.shows.faults hf₂) hat₃ hlt (by omega)
      rw [Code.bind_ok hnext]
      exact ⟨d', hloop, (hm.before h hj hs₃).trans h hi hji hm'⟩

/-- The entries from the first part of the long name to the one with the short name are marked. -/
theorem dirRemove_marks {j : ℕ} (h : d.Lies T others) (hf : d.fs.drv.faults = []) (hidx : d.dp.index = i)
    (hstart : (if d.dp.lfnIdx = 0xFFFF then d.dp.index else d.dp.lfnIdx) = j) (hji : j ≤ i) (hi : i < T.slots) :
    ∃ d', dirRemove d = some (.ok (), d') ∧ Marked T d d' j i := by
  obtain ⟨r, d₁, hsdi, hs, rfl, hat, -⟩ :=
    (dirSdi_looks h (Drive.failures_of_nil hf) (lt_of_le_of_lt hji hi)).result
  have hle := slots_le h.placed
  obtain ⟨d', hloop, hm⟩ := removeLoop_marks (2 ^ 16) (h.same hs) (hs.shows.faults hf) hat hji hi (by omega)
  refine ⟨d', instead_ok ?_ (by decide), hm.after hs h.alloc.valid⟩
  rw [Code.bind_ok (show Code.read d = some (.ok d, d) from rfl), hstart, Code.bind_ok hsdi, hidx]
  exact hloop

/-- The other entries are not changed. -/
theorem Marked.slot {k : ℕ} (h : d.Lies T others) (hi : i < T.slots) (hm : Marked T d d' j i) (hk : k < T.slots)
    (hout : k < j ∨ i < k) : T.slot d'.fs.seen k = T.slot d.fs.seen k := by
  have hmod := addr_mod T k
  have hplain : d.fs.Plain (T.addr (32 * k) / 512) := by
    rw [h.vol]
    exact (sect_plain h.placed hk).1
  funext x
  unfold DirTable.slot entryAt
  split_ifs with hx
  · refine hm.other _ (by rwa [show (T.addr (32 * k) + x) / 512 = T.addr (32 * k) / 512 by omega]) fun m hge hle heq => ?_
    have := addr_inj h.placed (lt_of_le_of_lt hle hi) hk hx heq
    omega
  · rfl

/-- The entries that are left. -/
theorem Marked.holds {os os₁ os₂ : List DirObject} {o : DirObject} {es₁ l es₂ : List DirEntry} (h : d.Lies T others)
    (hsplit : Splits os (T.entries d.fs.seen 0) os₁ o os₂ es₁ l es₂)
    (hm : Marked T d d' es₁.length (es₁.length + lfnCount o.nm)) : Holds (os₁ ++ os₂) (T.entries d'.fs.seen 0) := by
  have hlt := hsplit.index_lt
  rw [Nat.zero_add] at hlt
  have hlen := congrArg List.length hsplit.entries
  rw [length_entries, Nat.sub_zero, List.length_append, List.length_append] at hlen
  have hl := hsplit.written.length
  -- the table in three parts
  have hparts : ∀ mem, T.entries mem 0 = T.segment mem 0 es₁.length ++ (T.segment mem (0 + es₁.length) l.length ++
      T.segment mem (0 + es₁.length + l.length) es₂.length) := by
    intro mem
    rw [entries_zero, hlen, segment_append, segment_append]
  have hentries := hsplit.entries
  rw [hparts] at hentries
  obtain ⟨hfront, hentries⟩ := List.append_inj hentries length_segment
  obtain ⟨-, hrest⟩ := List.append_inj hentries length_segment
  have hfront' : T.segment d'.fs.seen 0 es₁.length = es₁ :=
    (segment_congr fun k _ hk => hm.slot h hlt (by omega) (.inl (by omega))).trans hfront
  have hrest' : T.segment d'.fs.seen (0 + es₁.length + l.length) es₂.length = es₂ :=
    (segment_congr fun k hge hk => hm.slot h hlt (by omega) (.inr (by omega))).trans hrest
  rw [hparts, hfront', hrest']
  refine hsplit.front _ _ (Holds.skips (fun e he => ?_) hsplit.rest)
  obtain ⟨k, hk, rfl⟩ := List.mem_map.1 he
  obtain ⟨hge, hlt'⟩ := List.mem_range'_1.1 hk
  have hmark : T.slot d'.fs.seen k 0 = deletedMark := hm.mark k (by omega) (by omega)
  exact ⟨by rw [hmark]; decide, .inl hmark⟩

/-- What is marked of an object that was found: the parts of its long name only if it was found by that. -/
theorem FoundAt.marks {os os₁ os₂ : List DirObject} {o : DirObject} {es₁ l es₂ : List DirEntry} (h : d.Lies T others)
    (hf : d.fs.drv.faults = []) (hs : Same d d') (hfound : FoundAt d T os q d' os₁ o os₂ es₁ l es₂) :
    ∃ d'', dirRemove d' = some (.ok (), d'') ∧ Marked T d d''
      (if d.dp.hasLfn = true ∧ o.Named q then es₁.length else es₁.length + lfnCount o.nm) (es₁.length + lfnCount o.nm) := by
  have hlt := hfound.splits.index_lt
  rw [Nat.zero_add] at hlt
  have hle := slots_le h.placed
  have hstart : (if d'.dp.lfnIdx = 0xFFFF then d'.dp.index else d'.dp.lfnIdx) =
      if d.dp.hasLfn = true ∧ o.Named q then es₁.length else es₁.length + lfnCount o.nm := by
    rw [hfound.lfnIdx, hfound.at'.index]
    by_cases hnamed : d.dp.hasLfn = true ∧ o.Named q
    · have hpos : 0 < lfnCount o.nm := Nat.pos_of_ne_zero (mt lfnCount_eq_zero.1 hnamed.2.1)
      rw [if_pos hnamed, if_pos hnamed, if_neg (by omega)]
    · rw [if_neg hnamed, if_neg hnamed, if_pos rfl]
  obtain ⟨d'', hremove, hm⟩ := dirRemove_marks (h.same hs) (hs.shows.faults hf) hfound.at'.index hstart
    (by split_ifs <;> omega) hlt
  exact ⟨d'', hremove, hm.after hs h.alloc.valid⟩

/-- **Removing.** When the object was found by its long name, or has none, it is removed: the directory holds the others,
and outside its table nothing that is seen is changed. -/
theorem dirRemove_removes {os : List DirObject} (h : d.Lies T others) (hf : d.fs.drv.faults = [])
    (hos : Holds os (T.entries d.fs.seen 0)) (hq : Query d.dp q) : ∃ r d', dirFind d = some (r, d') ∧
      ((r = .error .FR_NO_FILE ∧ ∀ o ∈ os, ¬ o.Matches d.dp q) ∨
        (r = .ok () ∧ ∃ os₁ o os₂, os = os₁ ++ o :: os₂ ∧ (∀ o' ∈ os₁, ¬ o'.Matches d.dp q) ∧ o.Matches d.dp q ∧
          (o.nm = [] ∨ d.dp.hasLfn = true ∧ o.Named q → ∃ d'', dirRemove d' = some (.ok (), d'') ∧ d''.Lies T others ∧
            d''.fs.drv.faults = [] ∧ Holds (os₁ ++ os₂) (T.entries d''.fs.seen 0) ∧
            ∀ a, d.fs.Plain (a / 512) → (∀ k < T.slots, a ≠ T.addr (32 * k)) → d''.fs.seen a = d.fs.seen a))) := by
  obtain ⟨r, d', hrun, hs, hnone | ⟨rfl, os₁, o, os₂, es₁, l, es₂, hfound⟩ | ⟨-, hne⟩⟩ := dirFind_first h hos hq
  · exact ⟨r, d', hrun, .inl hnone⟩
  · refine ⟨.ok (), d', hrun, .inr ⟨rfl, os₁, o, os₂, hfound.splits.objects, hfound.first, hfound.isMatch, fun hc => ?_⟩⟩
    have hlt := hfound.splits.index_lt
    rw [Nat.zero_add] at hlt
    obtain ⟨d'', hremove, hm⟩ := hfound.marks h hf hs
    have hstart : (if d.dp.hasLfn = true ∧ o.Named q then es₁.length else es₁.length + lfnCount o.nm) = es₁.length := by
      split_ifs with hnamed
      · rfl
      · rw [lfnCount_eq_zero.2 (hc.resolve_right hnamed), Nat.add_zero]
    rw [hstart] at hm
    exact ⟨d'', hremove, hm.kept.lies h, hm.kept.faults hf, hm.holds h hfound.splits, fun a ha hne =>
      hm.other a ha fun k _ hk => hne k (by omega)⟩
  · exact absurd hf hne.ne_nil

/-- The first object is removed, with the two entries of its long name. -/
theorem dirRemove_removes_manual : ∃ d' d'', dirFind (sampleDir manual) = some (.ok (), d') ∧
    dirRemove d' = some (.ok (), d'') ∧ d''.Lies sampleTable [] ∧ d''.fs.drv.faults = [] ∧
    Holds [boot, letterA] (sampleTable.entries d''.fs.seen 0) ∧
    ∀ a, (sampleDir manual).fs.Plain (a / 512) → (∀ k < sampleTable.slots, a ≠ sampleTable.addr (32 * k)) →
      d''.fs.seen a = (sampleDir manual).fs.seen a := by
  obtain ⟨r, d', hrun, ⟨-, hnone⟩ | ⟨rfl, os₁, o, os₂, hsplit, hfirst, hmatch, hremove⟩⟩ :=
    dirRemove_removes (sampleDir_lies manual) rfl (sampleDir_holds manual) (sampleDir_query manual_sound)
  · exact absurd (by decide) (hnone manual (by simp))
  · have hobjects : [] ++ manual :: [boot, letterA] = os₁ ++ o :: os₂ := hsplit
    obtain ⟨rfl, rfl, rfl⟩ := first_unique hobjects (by decide) (by decide) hfirst hmatch
    obtain ⟨d'', hrest⟩ := hremove (.inr (by decide))
    exact ⟨d', d'', hrun, hrest⟩

/-- The entry that is marked keeps its other bytes. -/
theorem Marked.slot_self (h : d.Lies T others) (hi : i < T.slots) (hm : Marked T d d' i i) :
    T.slot d'.fs.seen i = store (T.slot d.fs.seen i) 0 [deletedMark] := by
  have hmod := addr_mod T i
  have hplain : d.fs.Plain (T.addr (32 * i) / 512) := by
    rw [h.vol]
    exact (sect_plain h.placed hi).1
  funext x
  rcases Nat.eq_zero_or_pos x with rfl | hpos
  · rw [store_inside le_rfl (by decide)]
    exact hm.mark i le_rfl le_rfl
  · rw [store_outside (by simp only [List.length_singleton]; omega)]
    unfold DirTable.slot entryAt
    split_ifs with hx
    · refine hm.other _ (by rwa [show (T.addr (32 * i) + x) / 512 = T.addr (32 * i) / 512 by omega]) fun m hge hle heq => ?_
      obtain rfl : m = i := by omega
      omega
    · rfl

/-- **Removing by the short name.** When an object with a long name was found by its short one only, just the entry with
the short name is deleted: the parts of the long name stay. -/
theorem dirRemove_orphans {os : List DirObject} (h : d.Lies T others) (hf : d.fs.drv.faults = [])
    (hos : Holds os (T.entries d.fs.seen 0)) (hq : Query d.dp q) : ∃ r d', dirFind d = some (r, d') ∧
      ((r = .error .FR_NO_FILE ∧ ∀ o ∈ os, ¬ o.Matches d.dp q) ∨
        (r = .ok () ∧ ∃ os₁ o os₂ es₁ l es₂, FoundAt d T os q d' os₁ o os₂ es₁ l es₂ ∧
          (¬ (d.dp.hasLfn = true ∧ o.Named q) → ∃ d'', dirRemove d' = some (.ok (), d'') ∧
            T.entries d''.fs.seen 0 = (T.entries d.fs.seen 0).set (es₁.length + lfnCount o.nm)
              (store (T.slot d.fs.seen (es₁.length + lfnCount o.nm)) 0 [deletedMark])))) := by
  obtain ⟨r, d', hrun, hs, hnone | ⟨rfl, os₁, o, os₂, es₁, l, es₂, hfound⟩ | ⟨-, hne⟩⟩ := dirFind_first h hos hq
  · exact ⟨r, d', hrun, .inl hnone⟩
  · refine ⟨.ok (), d', hrun, .inr ⟨rfl, os₁, o, os₂, es₁, l, es₂, hfound, fun hshort => ?_⟩⟩
    have hlt := hfound.splits.index_lt
    rw [Nat.zero_add] at hlt
    obtain ⟨d'', hremove, hm⟩ := hfound.marks h hf hs
    rw [if_neg hshort] at hm
    refine ⟨d'', hremove, List.ext_getElem? fun k => ?_⟩
    by_cases hk : k < T.slots
    · rw [List.getElem?_set, entries_getElem? (by omega), entries_getElem? (by omega), Nat.zero_add, length_entries]
      by_cases heq : es₁.length + lfnCount o.nm = k
      · rw [if_pos heq, if_pos (by omega), ← heq, hm.slot_self h hlt]
      · rw [if_neg heq, hm.slot h hlt hk (by omega)]
    · rw [List.getElem?_eq_none (by rw [length_entries]; omega), List.getElem?_eq_none]
      rw [List.length_set, length_entries]
      omega
  · exact absurd hf hne.ne_nil

/-- The objects are looked for by a short name. -/
def shortDir : OpenDir :=
  { sampleDir manual with dp := { (sampleDir manual).dp with ns := 0, hasLfn := false } }

theorem shortDir_lies : shortDir.Lies sampleTable [] :=
  (sampleDir_lies manual).same ⟨FATFS.Shows.refl (sampleDir_valid manual), ⟨rfl, rfl⟩, rfl⟩

/-- Just the entry with the short name is deleted: the two with the long name stay. -/
theorem dirRemove_orphans_short : ∃ d' d'' es₁ l es₂, dirFind shortDir = some (.ok (), d') ∧
    FoundAt shortDir sampleTable [manual, boot, letterA] [] d' [] manual [boot, letterA] es₁ l es₂ ∧
    dirRemove d' = some (.ok (), d'') ∧
    sampleTable.entries d''.fs.seen 0 = (sampleTable.entries shortDir.fs.seen 0).set (es₁.length + 2)
      (store (sampleTable.slot shortDir.fs.seen (es₁.length + 2)) 0 [deletedMark]) := by
  obtain ⟨r, d', hrun, ⟨-, hnone⟩ | ⟨rfl, os₁, o, os₂, es₁, l, es₂, hfound, hremove⟩⟩ :=
    dirRemove_orphans (q := []) shortDir_lies rfl (sampleDir_holds manual) fun hc => absurd hc Bool.false_ne_true
  · exact absurd (by decide) (hnone manual (by simp))
  · have hobjects : [] ++ manual :: [boot, letterA] = os₁ ++ o :: os₂ := hfound.splits.objects
    obtain ⟨rfl, rfl, rfl⟩ := first_unique hobjects (by decide) (by decide) hfound.first hfound.isMatch
    obtain ⟨d'', hrun', hentries⟩ := hremove (by decide)
    exact ⟨d', d'', es₁, l, es₂, hrun, hfound, hrun', hentries⟩

end OpenDir

end Miosix
