import MiosixKernel.Fat.DirAlloc

/-!
# Registering an object in a directory

* `addr_inj`: the entries of a table do not overlap;
* `Holds.room`: the objects before some blank entries, and those behind them;
* `OpenDir.Wrote`: some entries are written, and nothing else is changed;
* `edit_writes`, `fitLoop_writes`, `putEntries_writes`: one entry, those of a long name, and all those of an object;
* **`dirRegister_registers`**: the new object is in the directory, among the others.
-/

namespace Miosix

open Lib Volume DirTable

namespace DirTable

variable {T : DirTable} {i j k n : ℕ} {mem mem' : ℕ → UInt8}

theorem entry_lt (hne : T.clusters ≠ []) (hi : i < T.slots) : 32 * i < T.vol.bcs * T.clusters.length := by
  rw [slots, if_neg hne] at hi
  have hlt := lt_of_lt_of_le hi (Nat.min_le_right _ _)
  calc 32 * i < 32 * (T.clusters.length * (16 * T.vol.csize)) := Nat.mul_lt_mul_of_pos_left hlt (by decide)
    _ = T.vol.bcs * T.clusters.length := by unfold bcs; ring

/-- The entries do not overlap. -/
theorem addr_inj (h : T.Placed) (hi : i < T.slots) (hj : j < T.slots) (hk : k < 32)
    (heq : T.addr (32 * j) + k = T.addr (32 * i)) : j = i := by
  by_cases hl : T.clusters = []
  · rw [addr, addr, if_pos hl, if_pos hl] at heq
    omega
  · rw [addr, addr, if_neg hl, if_neg hl] at heq
    have hpos : 0 < 16 * T.vol.csize := Nat.mul_pos (by decide) h.sized.pos
    have hroom : 32 * j % T.vol.bcs + 32 ≤ T.vol.bcs := by
      have hmod := Nat.mod_lt j hpos
      rw [entry_mod]
      unfold bcs
      omega
    obtain ⟨hiff, -⟩ := mem_range_addr (n := 32) h.sized h.nodup (fun c hc => (h.range c hc).1) (entry_lt hl hi)
      (entry_lt hl hj) hroom
    obtain ⟨hle, hlt⟩ := hiff.1 ⟨by omega, by omega⟩
    omega

/-- Some of the entries. -/
def segment (T : DirTable) (mem : ℕ → UInt8) (i n : ℕ) : List DirEntry := (List.range' i n).map (T.slot mem)

theorem segment_append {m : ℕ} : T.segment mem i (m + n) = T.segment mem i m ++ T.segment mem (i + m) n := by
  unfold segment
  rw [← List.map_append]
  congr 1
  rw [← List.range'_append, Nat.one_mul]

theorem length_segment : (T.segment mem i n).length = n := by rw [segment, List.length_map, List.length_range']

theorem segment_congr (h : ∀ k, i ≤ k → k < i + n → T.slot mem' k = T.slot mem k) :
    T.segment mem' i n = T.segment mem i n :=
  List.map_congr_left fun k hk => h k (List.mem_range'_1.1 hk).1 (List.mem_range'_1.1 hk).2

theorem entries_zero : T.entries mem 0 = T.segment mem 0 T.slots := by rw [entries, segment, Nat.sub_zero]

end DirTable

theorem load_getD {mem : ℕ → UInt8} {n i : ℕ} (hi : i < n) : (load mem 0 n).getD i 0 = mem i := by
  rw [List.getD_eq_getElem _ _ (by rwa [length_load])]
  simp [load]

/-! ## The objects around a room -/

section Room

variable {os : List DirObject} {es es₁ es₂ l : List DirEntry} {o : DirObject} {e : DirEntry} {nm : List ℕ} {k : ℕ}
  {s : UInt8}

theorem IsLfnEntry.used (h : IsLfnEntry e nm k s) (hk : k < 20) : ¬ IsBlank e := by
  obtain ⟨⟨h0, h0'⟩, ⟨hd, hd'⟩, -⟩ := ord_bytes_ne k hk
  unfold IsBlank
  rw [h.first]
  split_ifs
  · exact not_or.2 ⟨hd', h0'⟩
  · exact not_or.2 ⟨hd, h0⟩

/-- No entry of an object is blank. -/
theorem DirObject.Written.used (hs : o.Sound) (h : o.Written l) : ∀ e ∈ l, ¬ IsBlank e := by
  obtain ⟨es, e, hparts, hsfn, rfl⟩ := h
  intro e' he'
  rcases List.mem_append.1 he' with hmem | hmem
  · obtain ⟨k, hk, rfl⟩ := List.mem_map.1 hmem
    have hlt := List.mem_range.1 (List.mem_reverse.1 hk)
    exact (hparts k hlt).used (lt_of_lt_of_le hlt hs.count_le)
  · obtain rfl := List.mem_singleton.1 hmem
    have hhead := hs.head
    rw [hsfn.head] at hhead
    exact not_or.2 ⟨hhead.2, hhead.1⟩

/-- Behind blank entries. -/
theorem Holds.behind (hb : ∀ e ∈ l, IsBlank e) (h : Holds os (l ++ es)) : Holds os es := by
  induction l with
  | nil => exact h
  | cons e l ih =>
    refine ih (fun e' he' => hb e' (List.mem_cons_of_mem e he')) ?_
    generalize hes : e :: l ++ es = es' at h
    cases h with
    | free hz => exact .free fun e' he' => hz e' (by rw [← hes]; exact List.mem_cons_of_mem e he')
    | skip _ h' =>
      obtain ⟨rfl, rfl⟩ := List.cons.inj hes
      exact h'
    | object hs hw h' =>
      rename_i lo o
      have hused := hw.used hs
      cases lo with
      | nil => exact absurd hw.length (by simp)
      | cons eo lo =>
        obtain ⟨rfl, -⟩ := List.cons.inj hes
        exact absurd (hb e List.mem_cons_self) (hused e List.mem_cons_self)

/-- The objects before a room, and those behind it. -/
theorem Holds.room (h : Holds os es) (hes : es = es₁ ++ (l ++ es₂)) (hne : l ≠ []) (hb : ∀ e ∈ l, IsBlank e)
    (hz : ∀ e ∈ es₁, e 0 ≠ 0) : ∃ os₁ os₂, os = os₁ ++ os₂ ∧ Front os₁ es₁ ∧ Holds os₂ es₂ := by
  induction h generalizing es₁ with
  | free hfree =>
    subst hes
    obtain rfl : es₁ = [] := by
      refine List.eq_nil_iff_forall_not_mem.2 fun e he => hz e he (hfree e (List.mem_append_left _ he))
    exact ⟨[], [], rfl, .nil, .free fun e he => hfree e (List.mem_append_right _ (List.mem_append_right _ he))⟩
  | skip hu h' ih =>
    rename_i os es e
    cases es₁ with
    | nil => exact ⟨[], os, rfl, .nil, Holds.behind hb (by rw [← List.nil_append (l ++ es₂), ← hes]; exact .skip hu h')⟩
    | cons e₁ es₁ =>
      obtain ⟨rfl, heq⟩ := List.cons.inj hes
      obtain ⟨os₁, os₂, rfl, hfront, hrest⟩ := ih heq fun e' he' => hz e' (List.mem_cons_of_mem _ he')
      exact ⟨os₁, os₂, rfl, hfront.skip hu, hrest⟩
  | object hs hw h' ih =>
    rename_i os es lo o
    have hused := hw.used hs
    obtain ⟨as, rfl, heq⟩ | ⟨cs, rfl, heq⟩ := List.append_eq_append_iff.1 hes
    · obtain ⟨os₁, os₂, rfl, hfront, hrest⟩ := ih heq fun e' he' => hz e' (List.mem_append_right _ he')
      exact ⟨o :: os₁, os₂, rfl, hfront.object hs hw, hrest⟩
    · cases cs with
      | nil =>
        rw [List.append_nil] at hw
        have hes : es = [] ++ (l ++ es₂) := heq.symm
        obtain ⟨os₁, os₂, rfl, hfront, hrest⟩ := ih hes fun e' he' => absurd he' List.not_mem_nil
        have hobj := hfront.object hs hw
        rw [List.append_nil] at hobj
        exact ⟨o :: os₁, os₂, rfl, hobj, hrest⟩
      | cons c cs =>
        cases l with
        | nil => exact absurd rfl hne
        | cons b l =>
          obtain ⟨rfl, -⟩ := List.cons.inj heq
          exact absurd (hb b List.mem_cons_self) (hused b (List.mem_append_right _ List.mem_cons_self))

/-- Behind an entry that is free there are only free ones. -/
theorem Holds.free_tail (h : Holds os es) {p q : ℕ} {e' : DirEntry} (hpq : p ≤ q) (hp : es[p]? = some e) (hz : e 0 = 0)
    (hq : es[q]? = some e') : e' 0 = 0 := by
  induction h generalizing p q with
  | free hfree => exact hfree e' (List.mem_of_getElem? hq)
  | skip hu _ ih =>
    cases p with
    | zero =>
      rw [List.getElem?_cons_zero] at hp
      obtain rfl := Option.some.inj hp
      exact absurd hz hu.1
    | succ p =>
      obtain ⟨q, rfl⟩ : ∃ q', q = q' + 1 := ⟨q - 1, by omega⟩
      rw [List.getElem?_cons_succ] at hp hq
      exact ih (by omega) hp hq
  | object hs hw h' ih =>
    rename_i os es lo o
    rcases Nat.lt_or_ge p lo.length with hlt | hge
    · rw [List.getElem?_append_left hlt] at hp
      exact absurd (.inr hz) (hw.used hs e (List.mem_of_getElem? hp))
    · rw [List.getElem?_append_right hge] at hp
      rw [List.getElem?_append_right (hge.trans hpq)] at hq
      exact ih (Nat.sub_le_sub_right hpq _) hp hq

end Room

/-- The length of the name in the buffer. -/
theorem lfnLength_eq {lfnbuf : ℕ → ℕ} {nm : List ℕ} (hn : IsName nm) (hbuf : HoldsName lfnbuf nm)
    (hlen : nm.length ≤ maxLfn) : OpenDir.lfnLength lfnbuf = nm.length := by
  refine (List.findIdx_eq (by rw [List.length_range]; omega)).2 ⟨?_, fun j hj => ?_⟩
  · rw [List.getElem_range, hbuf _ le_rfl, nameWord_length]
    rfl
  · rw [List.getElem_range, hbuf _ hj.le]
    have hpos := (hn.word_lt hj).1
    exact decide_eq_false (by omega)

theorem sfnEntry_isSfnEntry {dp : DIR_} {e : DirEntry} (hlen : dp.fn.length = 11)
    (he : ∀ x < 32, e x = OpenDir.sfnEntry dp x) : IsSfnEntry e dp.fn := by
  refine ⟨?_, ?_⟩
  · have hload : load e 0 11 = load (OpenDir.sfnEntry dp) 0 11 := load_congr fun x _ hx => he x (by omega)
    rw [hload, OpenDir.sfnEntry, load_store_of_disjoint (.inl (by decide)), load_store hlen]
  · have h11 : e 11 = 0 := by
      rw [he 11 (by decide), OpenDir.sfnEntry, store_outside (.inl (by decide)), store_outside (.inr (by omega))]
    rw [h11]
    decide

namespace OpenDir

variable {d d' d'' : OpenDir} {T : DirTable} {others : List (List ℕ)} {i j m n : ℕ}

/-! ## Writing entries -/

/-- The volume, its FAT and the place of the directory stay the same. -/
structure Kept (d d' : OpenDir) : Prop where
  valid : d'.fs.Valid
  vol : d'.fs.toVolume = d.fs.toVolume
  faults : d.fs.drv.faults = [] → d'.fs.drv.faults = []
  fat : d'.fs.fat = d.fs.fat
  root : d'.nRootdir = d.nRootdir ∧ d'.dirbase = d.dirbase
  sclust : d'.dp.sclust = d.dp.sclust

theorem Same.kept (hv : d.fs.Valid) (hs : Same d d') : Kept d d' :=
  ⟨hs.shows.valid, hs.shows.vol, fun hf => hs.shows.faults hf, hs.shows.fat hv.placed, hs.root, hs.sclust⟩

theorem Kept.trans (hk : Kept d d') (hk' : Kept d' d'') : Kept d d'' :=
  ⟨hk'.valid, hk'.vol.trans hk.vol, fun hf => hk'.faults (hk.faults hf), hk'.fat.trans hk.fat,
    ⟨hk'.root.1.trans hk.root.1, hk'.root.2.trans hk.root.2⟩, hk'.sclust.trans hk.sclust⟩

theorem Kept.lies (h : d.Lies T others) (hk : Kept d d') : d'.Lies T others :=
  ⟨hk.vol.trans h.vol, ⟨hk.root.1.trans h.root.1, hk.root.2.trans h.root.2⟩, h.placed,
    ⟨hk.valid, by rw [FATFS.links_congr hk.vol hk.fat]; exact h.alloc.chains⟩,
    fun hl => hk.sclust.trans (h.static hl), by rw [hk.sclust]; exact h.start⟩

/-- Only the `n` entries from `j` on may be changed. -/
structure Wrote (T : DirTable) (d d' : OpenDir) (j n : ℕ) : Prop where
  kept : Kept d d'
  other : ∀ a, d.fs.Plain (a / 512) → (∀ k, j ≤ k → k < j + n → ∀ x < 32, a ≠ T.addr (32 * k) + x) →
    d'.fs.seen a = d.fs.seen a

theorem Same.wrote (hv : d.fs.Valid) (hs : Same d d') (T : DirTable) (j : ℕ) : Wrote T d d' j 0 :=
  ⟨hs.kept hv, fun a ha _ => hs.shows.seen a ha⟩

theorem Wrote.trans (hw : Wrote T d d' j m) (hw' : Wrote T d' d'' (j + m) n) : Wrote T d d'' j (m + n) := by
  refine ⟨hw.kept.trans hw'.kept, fun a ha hne => ?_⟩
  rw [hw'.other a (by rw [hw.kept.vol]; exact ha) fun k hge hlt => hne k (by omega) (by omega)]
  exact hw.other a ha fun k hge hlt => hne k hge (by omega)

/-- The other entries are not changed. -/
theorem Wrote.slot (h : d.Lies T others) (hw : Wrote T d d' j n) (hn : j + n ≤ T.slots) (hi : i < T.slots)
    (hout : i < j ∨ j + n ≤ i) : T.slot d'.fs.seen i = T.slot d.fs.seen i := by
  have hmod := addr_mod T i
  have hplain : d.fs.Plain (T.addr (32 * i) / 512) := by
    rw [h.vol]
    exact (sect_plain h.placed hi).1
  funext x
  unfold DirTable.slot entryAt
  split_ifs with hx
  · refine hw.other _ (by rwa [show (T.addr (32 * i) + x) / 512 = T.addr (32 * i) / 512 by omega])
      fun k hge hlt y hy heq => ?_
    have hk : k < T.slots := by omega
    have : i = k := by
      rcases Nat.le_total x y with hxy | hxy
      · exact (addr_inj (k := y - x) h.placed hi hk (by omega) (by omega)).symm
      · exact addr_inj (k := x - y) h.placed hk hi (by omega) (by omega)
    omega
  · rfl

/-- The entry in the window is seen as it is written. -/
theorem edit_seen (g : DirEntry → DirEntry) (h : d.Lies T others) (hat : T.At d.dp j) (hj : j < T.slots)
    (hwin : d.fs.winsect = d.dp.sect) : ∃ fs', edit g d = some (.ok (), { d with fs := fs' }) ∧
      Kept d { d with fs := fs' } ∧ fs'.seen = store d.fs.seen (T.addr (32 * j)) (load (g d.entry) 0 32) := by
  have hv := h.alloc.valid
  obtain ⟨-, hfat, -, -⟩ := sect_plain h.placed hj
  have hmod := addr_mod T j
  have haddr : 512 * (T.addr (32 * j) / 512) + d.dp.dir = T.addr (32 * j) := by
    rw [hat.dir, ← hmod, Nat.div_add_mod]
  have hlen : d.dp.dir + (load (g d.entry) 0 32).length ≤ 512 := by
    rw [length_load, hat.dir]
    omega
  have hseen : (d.fs.patch d.dp.dir (load (g d.entry) 0 32)).seen =
      store d.fs.seen (T.addr (32 * j)) (load (g d.entry) 0 32) := by
    rw [← haddr]
    exact FATFS.seen_store (hwin.trans hat.sect) hlen
  refine ⟨d.fs.patch d.dp.dir (load (g d.entry) 0 32), rfl,
    ⟨hv.dirty _, rfl, id, ?_, ⟨rfl, rfl⟩, rfl⟩, hseen⟩
  funext c
  unfold FATFS.fat
  dsimp only
  by_cases hc : 2 ≤ c ∧ c < d.fs.nFatent
  · refine (if_pos hc).trans (Eq.trans ?_ (if_pos hc).symm)
    refine Volume.entry_congr hv.placed hc.2 fun a hge hlt => ?_
    rw [hseen, store_outside]
    by_contra hin
    rw [length_load] at hin
    rw [← h.vol, show T.addr (32 * j) / 512 = a / 512 by omega] at hfat
    exact hfat ⟨hge, hlt⟩
  · exact (if_neg hc).trans (if_neg hc).symm

/-- One entry is written. -/
theorem edit_writes (g : DirEntry → DirEntry) (h : d.Lies T others) (hat : T.At d.dp j) (hj : j < T.slots)
    (hwin : d.fs.winsect = d.dp.sect) : ∃ d', edit g d = some (.ok (), d') ∧ d'.dp = d.dp ∧ Wrote T d d' j 1 ∧
      ∀ x < 32, T.slot d'.fs.seen j x = g d.entry x := by
  obtain ⟨fs', hedit, hkept, hseen⟩ := edit_seen g h hat hj hwin
  refine ⟨{ d with fs := fs' }, hedit, rfl, ⟨hkept, fun a _ hne => ?_⟩, fun x hx => ?_⟩
  · rw [hseen, store_outside]
    by_contra hin
    rw [length_load] at hin
    exact hne j le_rfl (Nat.lt_succ_self j) (a - T.addr (32 * j)) (by omega) (by omega)
  · unfold DirTable.slot entryAt
    rw [if_pos hx, hseen, store_inside (Nat.le_add_right _ _) (by rw [length_load]; omega), Nat.add_sub_cancel_left,
      load_getD hx]

/-- The entry is brought into the window, and written. -/
theorem toWindow_edit (g : DirEntry → DirEntry) (h : d.Lies T others) (hf : d.fs.drv.faults = []) (hat : T.At d.dp j)
    (hj : j < T.slots) : ∃ d₁ d', toWindow d = some (.ok (), d₁) ∧ d₁.dp = d.dp ∧ edit g d₁ = some (.ok (), d') ∧
      d'.dp = d.dp ∧ Wrote T d d' j 1 ∧ ∀ x < 32, T.slot d'.fs.seen j x = g (T.slot d.fs.seen j) x := by
  obtain ⟨r, d₁, hwindow, hs, rfl, hdp, hwin, hentry⟩ := (toWindow_looks h (Drive.failures_of_nil hf) hat hj).result
  rw [← hdp] at hwin hat
  obtain ⟨d', hedit, hdp', hw, hslot⟩ := edit_writes g (h.same hs) hat hj hwin
  rw [hentry] at hslot
  have hw' := (hs.wrote h.alloc.valid T j).trans hw
  rw [Nat.zero_add] at hw'
  exact ⟨d₁, d', hwindow, hdp, hedit, hdp'.trans hdp, hw', hslot⟩

/-- The loop writes the parts of the name, the last one first. -/
theorem fitLoop_writes (sum : UInt8) (ne : ℕ) (h : d.Lies T others) (hf : d.fs.drv.faults = []) (hat : T.At d.dp i)
    (hi : i + ne < T.slots) : ∃ d', fitLoop sum ne d = some (.ok (), d') ∧ T.At d'.dp (i + ne) ∧ Moved d.dp d'.dp ∧
      Wrote T d d' i ne ∧ ∀ k < ne, ∃ e, ∀ x < 32, T.slot d'.fs.seen (i + k) x = fitLfn d.dp.lfnbuf e (ne - k) sum x := by
  induction ne generalizing d i with
  | zero =>
    exact ⟨d, rfl, hat, rfl, (Same.refl h.alloc.valid).wrote h.alloc.valid T i, fun k hk => absurd hk (Nat.not_lt_zero k)⟩
  | succ ne ih =>
    obtain ⟨d₁, d₂, hwindow, hdp₁, hedit, hdp₂, hw, hslot⟩ :=
      toWindow_edit (fun dir => fitLfn d.dp.lfnbuf dir (ne + 1) sum) h hf hat (by omega)
    have h₂ := hw.kept.lies h
    have hf₂ := hw.kept.faults hf
    rw [← hdp₂] at hat
    obtain ⟨r, d₃, hnext, hs₃, rfl, hat₃, hm₃⟩ :=
      (dirNext_looks h₂ (Drive.failures_of_nil hf₂) hat false (by omega)).result
    obtain ⟨d', hloop, hat', hm', hw', hparts⟩ := ih (h₂.same hs₃) (hs₃.shows.faults hf₂) hat₃ (by omega)
    rw [hdp₂] at hm₃
    have hbuf : d₃.dp.lfnbuf = d.dp.lfnbuf := by rw [hm₃]
    have hw₃ := (hw.trans (hs₃.wrote h₂.alloc.valid T (i + 1))).trans hw'
    refine ⟨d', ?_, by rwa [Nat.add_right_comm] at hat', hm₃.trans hm', by rwa [Nat.add_comm ne 1], fun k hk => ?_⟩
    · unfold fitLoop
      rw [Code.bind_ok hwindow, Code.bind_ok (show Code.read d₁ = some (.ok d₁, d₁) from rfl), hdp₁, Code.bind_ok hedit,
        Code.bind_ok hnext]
      exact hloop
    · cases k with
      | zero =>
        refine ⟨T.slot d.fs.seen i, fun x hx => ?_⟩
        rw [Nat.add_zero, Nat.sub_zero, ← hslot x hx,
          hw'.slot (h₂.same hs₃) (by omega) (by omega) (.inl (Nat.lt_succ_self i)), h₂.slot hs₃ (by omega)]
      | succ k =>
        obtain ⟨e, he⟩ := hparts k (by omega)
        rw [hbuf] at he
        refine ⟨e, fun x hx => ?_⟩
        rw [Nat.add_sub_add_right, ← he x hx, show i + (k + 1) = i + 1 + k by omega]

/-- The entries of the long name, when there are any. -/
theorem fitEntries_writes (h : d.Lies T others) (hf : d.fs.drv.faults = []) (hat : T.At d.dp j) (hj : j < T.slots)
    (hn : n ≤ j) : ∃ d', Code.onlyIf (n ≠ 0) (fitEntries n) d = some (.ok (), d') ∧ T.At d'.dp j ∧ Moved d.dp d'.dp ∧
      Wrote T d d' (j - n) n ∧
      ∀ k < n, ∃ e, ∀ x < 32, T.slot d'.fs.seen (j - n + k) x = fitLfn d.dp.lfnbuf e (n - k) (sumSfn d.dp.fn) x := by
  have hv := h.alloc.valid
  rcases Nat.eq_zero_or_pos n with rfl | hpos
  · exact ⟨d, rfl, hat, rfl, (Same.refl hv).wrote hv T _, fun k hk => absurd hk (Nat.not_lt_zero k)⟩
  · have hle := slots_le h.placed
    obtain ⟨r, d₁, hsdi, hs, rfl, hat₁, hm₁⟩ :=
      (dirSdi_looks (i := j - n) h (Drive.failures_of_nil hf) (by omega)).result
    obtain ⟨d', hloop, hat', hm', hw, hparts⟩ :=
      fitLoop_writes (sumSfn d.dp.fn) n (h.same hs) (hs.shows.faults hf) hat₁ (by omega)
    have hw' := (hs.wrote hv T (j - n)).trans hw
    rw [Nat.zero_add] at hw'
    have hbuf : d₁.dp.lfnbuf = d.dp.lfnbuf := by rw [hm₁]
    rw [hbuf] at hparts
    refine ⟨d', ?_, by rwa [Nat.sub_add_cancel hn] at hat', hm₁.trans hm', hw', hparts⟩
    rw [Code.onlyIf, if_pos (by omega), fitEntries, Code.bind_ok (show Code.read d = some (.ok d, d) from rfl),
      hat.index, show (j + 2 ^ 16 - n) % 2 ^ 16 = j - n by omega, Code.bind_ok hsdi]
    exact hloop

/-- The room, between the entries before it and those behind it. -/
theorem entries_room (hj : j < T.slots) (hn : n ≤ j) (mem : ℕ → UInt8) : T.entries mem 0 =
    T.segment mem 0 (j - n) ++ (T.segment mem (j - n) (n + 1) ++ T.segment mem (j + 1) (T.slots - (j + 1))) := by
  have hslots : T.slots = j - n + (n + 1 + (T.slots - (j + 1))) := by omega
  have hroom : j - n + (n + 1) = j + 1 := by omega
  calc T.entries mem 0 = T.segment mem 0 (j - n + (n + 1 + (T.slots - (j + 1)))) := by rw [entries_zero, ← hslots]
    _ = _ := by rw [segment_append, Nat.zero_add, segment_append, hroom]

/-- Before the first room no entry is free. -/
theorem first_room {os : List DirObject} {mem : ℕ → UInt8} (hos : Holds os (T.entries mem 0)) (hj : j < T.slots)
    (hn : n ≤ j) (hfirst : ∀ k < j, ¬ T.Room mem (n + 1) k) : ∀ e ∈ T.segment mem 0 (j - n), e 0 ≠ 0 := by
  intro e he hz
  obtain ⟨p, hp, rfl⟩ := List.mem_map.1 he
  have hlt := (List.mem_range'_1.1 hp).2
  rw [Nat.zero_add] at hlt
  have hget : ∀ k < T.slots, (T.entries mem 0)[k]? = some (T.slot mem k) := fun k hk => by
    rw [entries_getElem? (by omega), Nat.zero_add]
  refine hfirst (j - 1) (by omega) ⟨by omega, fun k hlt' hle => .inr ?_⟩
  exact hos.free_tail (p := p) (by omega) (hget p (by omega)) hz (hget k (by omega))

/-- The entries are those of the object. -/
theorem segment_written {o : DirObject} {mem : ℕ → UInt8} (hn : lfnCount o.nm ≤ j)
    (hparts : ∀ k < lfnCount o.nm, IsLfnEntry (T.slot mem (j - (k + 1))) o.nm k (sumSfn o.sfn))
    (hsfn : IsSfnEntry (T.slot mem j) o.sfn) :
    o.Written (T.segment mem (j - lfnCount o.nm) (lfnCount o.nm + 1)) := by
  refine ⟨fun k => T.slot mem (j - (k + 1)), T.slot mem j, hparts, hsfn, ?_⟩
  rw [segment_append, Nat.sub_add_cancel hn]
  congr 1
  refine List.ext_getElem (by simp [length_segment]) fun k hk _ => ?_
  rw [length_segment] at hk
  simp only [DirTable.segment, List.getElem_map, List.getElem_range', List.getElem_reverse, List.getElem_range,
    List.length_range]
  congr 1
  omega

/-- The new object is among the others. -/
theorem Wrote.holds {os : List DirObject} {o : DirObject} (h : d.Lies T others)
    (hw : Wrote T d d' (j - lfnCount o.nm) (lfnCount o.nm + 1)) (hos : Holds os (T.entries d.fs.seen 0)) (ho : o.Sound)
    (hj : j < T.slots) (hroom : T.Room d.fs.seen (lfnCount o.nm + 1) j)
    (hfirst : ∀ k < j, ¬ T.Room d.fs.seen (lfnCount o.nm + 1) k)
    (hwritten : o.Written (T.segment d'.fs.seen (j - lfnCount o.nm) (lfnCount o.nm + 1))) :
    ∃ os₁ os₂, os = os₁ ++ os₂ ∧ Holds (os₁ ++ o :: os₂) (T.entries d'.fs.seen 0) := by
  have hn : lfnCount o.nm ≤ j := Nat.le_of_succ_le_succ hroom.1
  have hother : ∀ k < T.slots, k < j - lfnCount o.nm ∨ j < k → T.slot d'.fs.seen k = T.slot d.fs.seen k :=
    fun k hk hout => hw.slot h (by omega) hk (by omega)
  have hblank : ∀ e ∈ T.segment d.fs.seen (j - lfnCount o.nm) (lfnCount o.nm + 1), IsBlank e := by
    intro e he
    obtain ⟨k, hk, rfl⟩ := List.mem_map.1 he
    obtain ⟨hge, hlt⟩ := List.mem_range'_1.1 hk
    exact hroom.2 k (by omega) (by omega)
  have hne : T.segment d.fs.seen (j - lfnCount o.nm) (lfnCount o.nm + 1) ≠ [] :=
    List.ne_nil_of_length_pos (by rw [length_segment]; exact Nat.succ_pos _)
  obtain ⟨os₁, os₂, rfl, hfront, hrest⟩ :=
    hos.room (entries_room hj hn d.fs.seen) hne hblank (first_room hos hj hn hfirst)
  refine ⟨os₁, os₂, rfl, ?_⟩
  have hfront' : T.segment d'.fs.seen 0 (j - lfnCount o.nm) = T.segment d.fs.seen 0 (j - lfnCount o.nm) :=
    segment_congr fun k _ hk => hother k (by omega) (.inl (by omega))
  have hrest' : T.segment d'.fs.seen (j + 1) (T.slots - (j + 1)) = T.segment d.fs.seen (j + 1) (T.slots - (j + 1)) :=
    segment_congr fun k hge hk => hother k (by omega) (.inr (by omega))
  rw [entries_room hj hn, hfront', hrest']
  exact hfront _ _ (.object ho hwritten hrest)

/-- The end of `dir_register`: the entries are written, of which `ne` are those of the long name. -/
def putEntries (ne : ℕ) : DirCode Unit := do
  Code.onlyIf (ne ≠ 0) (fitEntries ne)
  toWindow
  let d ← Code.read
  edit fun _ => sfnEntry d.dp

/-- The entries that are looked for are those of the object, when its short name needs no number. -/
theorem dirRegister_eq {o : DirObject} (ho : o.Sound) (hloss : d.dp.ns &&& nsLoss = 0)
    (hname : if d.dp.ns &&& nsLfn ≠ 0 then HoldsName d.dp.lfnbuf o.nm else o.nm = []) :
    dirRegister d = (dirAlloc (lfnCount o.nm + 1) >>= fun _ => putEntries (lfnCount o.nm)) d := by
  have hne : (if d.dp.ns &&& nsLfn ≠ 0 then (lfnLength d.dp.lfnbuf + 25) / 13 else 1) = lfnCount o.nm + 1 := by
    split_ifs at hname ⊢ with hc
    · rw [lfnLength_eq ho.name hname ho.length, lfnCount]
      omega
    · rw [hname]
      rfl
  unfold dirRegister
  rw [Code.bind_ok (show Code.read d = some (.ok d, d) from rfl), Code.onlyIf, if_neg fun hc => hc hloss,
    Code.bind_ok (show (pure () : DirCode Unit) d = some (.ok (), d) from rfl), hne, Nat.add_sub_cancel]
  rfl

/-- A long name is in the buffer. -/
theorem holdsName_of_pos {dp : DIR_} {o : DirObject}
    (hname : if dp.ns &&& nsLfn ≠ 0 then HoldsName dp.lfnbuf o.nm else o.nm = []) (hpos : 0 < lfnCount o.nm) :
    HoldsName dp.lfnbuf o.nm := by
  split_ifs at hname
  · exact hname
  · rw [hname] at hpos
    exact absurd hpos (by decide)

/-- The entries up to the one that the directory is at become those of the object. -/
theorem putEntries_writes {o : DirObject} (h : d.Lies T others) (hf : d.fs.drv.faults = []) (hat : T.At d.dp j)
    (hj : j < T.slots) (hn : lfnCount o.nm ≤ j) (ho : o.Sound) (hfn : d.dp.fn = o.sfn)
    (hbuf : 0 < lfnCount o.nm → HoldsName d.dp.lfnbuf o.nm) : ∃ d', putEntries (lfnCount o.nm) d = some (.ok (), d') ∧
      Wrote T d d' (j - lfnCount o.nm) (lfnCount o.nm + 1) ∧
      o.Written (T.segment d'.fs.seen (j - lfnCount o.nm) (lfnCount o.nm + 1)) := by
  obtain ⟨d₁, hfit, hat₁, hm₁, hw₁, hparts⟩ := fitEntries_writes h hf hat hj hn
  have h₁ := hw₁.kept.lies h
  obtain ⟨d₂, d', hwindow, hdp₂, hedit, -, hw₂, hslot⟩ :=
    toWindow_edit (fun _ => sfnEntry d₁.dp) h₁ (hw₁.kept.faults hf) hat₁ hj
  have hfn₁ : d₁.dp.fn = o.sfn := by rw [hm₁, hfn]
  have hhead : ∀ k < j, T.slot d'.fs.seen k = T.slot d₁.fs.seen k :=
    fun k hk => hw₂.slot h₁ (by omega) (by omega) (.inl hk)
  have hsfn : IsSfnEntry (T.slot d'.fs.seen j) o.sfn := by
    rw [← hfn₁]
    exact sfnEntry_isSfnEntry (by rw [hfn₁]; exact ho.sfn) hslot
  have hlfn : ∀ k < lfnCount o.nm, IsLfnEntry (T.slot d'.fs.seen (j - (k + 1))) o.nm k (sumSfn o.sfn) := by
    intro k hk
    obtain ⟨e, he⟩ := hparts (lfnCount o.nm - (k + 1)) (by omega)
    rw [show j - lfnCount o.nm + (lfnCount o.nm - (k + 1)) = j - (k + 1) by omega,
      show lfnCount o.nm - (lfnCount o.nm - (k + 1)) = k + 1 by omega, hfn] at he
    have hcount := ho.count_le
    have hpart : IsLfnEntry (fitLfn d.dp.lfnbuf e (k + 1) (sumSfn o.sfn)) o.nm k (sumSfn o.sfn) :=
      fitLfn_isLfnEntry ho.name (hbuf (by omega)) hk (by omega) (sumSfn o.sfn)
    refine hpart.congr fun x hx => ?_
    rw [hhead _ (by omega)]
    exact he x hx
  refine ⟨d', ?_, ?_, segment_written hn hlfn hsfn⟩
  · unfold putEntries
    rw [Code.bind_ok hfit, Code.bind_ok hwindow, Code.bind_ok (show Code.read d₂ = some (.ok d₂, d₂) from rfl), hdp₂]
    exact hedit
  · rw [← Nat.sub_add_cancel hn] at hw₂
    exact hw₁.trans hw₂

/-- **Registering.** An object whose short name needs no number is put among the others, when there is room for its
entries; in a table that can not grow and has no room nothing is changed. No other entry is touched. -/
theorem dirRegister_registers {os : List DirObject} {o : DirObject} (h : d.Lies T others) (hf : d.fs.drv.faults = [])
    (hos : Holds os (T.entries d.fs.seen 0)) (ho : o.Sound) (hloss : d.dp.ns &&& nsLoss = 0) (hfn : d.dp.fn = o.sfn)
    (hname : if d.dp.ns &&& nsLfn ≠ 0 then HoldsName d.dp.lfnbuf o.nm else o.nm = [])
    (hgrow : (∃ j < T.slots, T.Room d.fs.seen (lfnCount o.nm + 1) j) ∨ T.clusters = [] ∨ T.slots = 2 ^ 16) :
    ∃ r d', dirRegister d = some (r, d') ∧ d'.Lies T others ∧ d'.fs.drv.faults = [] ∧
      ((r = .ok () ∧ (∃ j < T.slots, T.Room d.fs.seen (lfnCount o.nm + 1) j) ∧
          (∃ os₁ os₂, os = os₁ ++ os₂ ∧ Holds (os₁ ++ o :: os₂) (T.entries d'.fs.seen 0)) ∧
          ∀ a, d.fs.Plain (a / 512) → (∀ k < T.slots, ∀ x < 32, a ≠ T.addr (32 * k) + x) → d'.fs.seen a = d.fs.seen a) ∨
        (r = .error .FR_DENIED ∧ Same d d' ∧ ∀ k < T.slots, ¬ T.Room d.fs.seen (lfnCount o.nm + 1) k)) := by
  have hv := h.alloc.valid
  rw [dirRegister_eq ho hloss hname]
  obtain ⟨r, d₁, halloc, hs₁, hm₁, ⟨rfl, j, hj, hroom, hfirst, hat₁⟩ | ⟨rfl, hnone⟩⟩ :=
    (dirAlloc_looks h (Drive.failures_of_nil hf) (Nat.succ_pos _) hgrow).result
  · have hn : lfnCount o.nm ≤ j := Nat.le_of_succ_le_succ hroom.1
    have hfn₁ : d₁.dp.fn = o.sfn := by rw [hm₁, hfn]
    have hbuf₁ : 0 < lfnCount o.nm → HoldsName d₁.dp.lfnbuf o.nm := by
      rw [hm₁]
      exact holdsName_of_pos hname
    obtain ⟨d', hput, hw₁, hwritten⟩ := putEntries_writes (h.same hs₁) (hs₁.shows.faults hf) hat₁ hj hn ho hfn₁ hbuf₁
    have hw := (hs₁.wrote hv T (j - lfnCount o.nm)).trans hw₁
    rw [Nat.zero_add] at hw
    refine ⟨.ok (), d', (Code.bind_ok halloc).trans hput, hw.kept.lies h, hw.kept.faults hf,
      .inl ⟨rfl, ⟨j, hj, hroom⟩, hw.holds h hos ho hj hroom hfirst hwritten, fun a ha hne => ?_⟩⟩
    exact hw.other a ha fun k _ hk => hne k (by omega)
  · exact ⟨.error .FR_DENIED, d₁, Code.bind_error halloc, h.same hs₁, hs₁.shows.faults hf, .inr ⟨rfl, hs₁, hnone⟩⟩

/-- `README.MD`, with its long name in small letters. -/
def readme : DirObject := ⟨[0x72, 0x65, 0x61, 0x64, 0x6D, 0x65, 0x2E, 0x6D, 0x64],
  [0x52, 0x45, 0x41, 0x44, 0x4D, 0x45, 0x20, 0x20, 0x4D, 0x44, 0x20]⟩

theorem readme_sound : readme.Sound := ⟨by unfold IsName; decide, by decide, rfl, by decide⟩

theorem dirRegister_registers_readme : ∃ d', dirRegister (sampleDir readme) = some (.ok (), d') ∧ d'.Lies sampleTable [] ∧
    d'.fs.drv.faults = [] ∧
    (∃ os₁ os₂, [manual, boot, letterA] = os₁ ++ os₂ ∧ Holds (os₁ ++ readme :: os₂) (sampleTable.entries d'.fs.seen 0)) ∧
    ∀ a, (sampleDir readme).fs.Plain (a / 512) →
      (∀ k < sampleTable.slots, ∀ x < 32, a ≠ sampleTable.addr (32 * k) + x) →
      d'.fs.seen a = (sampleDir readme).fs.seen a := by
  obtain ⟨r, d', hrun, hlies, hf, ⟨rfl, -, hholds, hother⟩ | ⟨-, -, hfull⟩⟩ :=
    dirRegister_registers (sampleDir_lies readme) rfl (sampleDir_holds readme) readme_sound (by decide) rfl
      (fun _ _ => rfl) (.inr (.inl rfl))
  · exact ⟨d', hrun, hlies, hf, hholds, hother⟩
  · exact absurd (sample_room readme).1 (hfull 9 (by decide))

end OpenDir

end Miosix
