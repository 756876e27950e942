import MiosixKernel.Fat.DirScan
import MiosixKernel.Fat.DirTable

/-!
# Finding and reading the objects of a directory

* `DirTable.entries`: the entries of a table, from one of them on;
* `scanLoop_looks`: the loop over the entries is `scan`;
* **`dirFind_looks`**: the first object with the name is found, and nothing that is seen is changed;
* **`dirRead_looks`**: the next object is read, with its long name.

A transfer that fails leads to `FR_DISK_ERR`, and to nothing else.
-/

namespace Miosix

open Lib Volume DirTable

namespace DirTable

/-- The entries, from one of them on. -/
def entries (T : DirTable) (mem : ℕ → UInt8) (i : ℕ) : List DirEntry := (List.range' i (T.slots - i)).map (T.slot mem)

variable {T : DirTable} {mem mem' : ℕ → UInt8} {i : ℕ}

theorem entries_of_lt (hi : i < T.slots) : T.entries mem i = T.slot mem i :: T.entries mem (i + 1) := by
  unfold entries
  rw [show T.slots - i = T.slots - (i + 1) + 1 by omega, List.range'_succ, List.map_cons]

theorem entries_of_le (hi : T.slots ≤ i) : T.entries mem i = [] := by
  rw [entries, Nat.sub_eq_zero_of_le hi]
  rfl

theorem entries_congr (h : ∀ j < T.slots, T.slot mem j = T.slot mem' j) : T.entries mem i = T.entries mem' i := by
  unfold entries
  refine List.map_congr_left fun j hj => h j ?_
  have := List.mem_range'_1.1 hj
  omega

theorem length_entries : (T.entries mem i).length = T.slots - i := by rw [entries, List.length_map, List.length_range']

theorem entries_getElem? {k : ℕ} (hk : i + k < T.slots) : (T.entries mem i)[k]? = some (T.slot mem (i + k)) := by
  rw [entries, List.getElem?_map, List.getElem?_range' (by omega)]
  simp

theorem entries_append {es es' : List DirEntry} (h : T.entries mem i = es ++ es') : es' = T.entries mem (i + es.length) := by
  induction es generalizing i with
  | nil => exact h.symm
  | cons e es ih =>
    have hlt : i < T.slots := by
      by_contra hge
      rw [entries_of_le (by omega)] at h
      cases h
    rw [entries_of_lt hlt, List.cons_append] at h
    rw [ih (List.cons.inj h).2, List.length_cons, Nat.add_assoc, Nat.add_comm 1]

end DirTable

/-- The entry with the short name of an object. -/
theorem Splits.slot {T : DirTable} {mem : ℕ → UInt8} {i : ℕ} {os os₁ os₂ : List DirObject} {o : DirObject}
    {es₁ l es₂ : List DirEntry} (h : Splits os (T.entries mem i) os₁ o os₂ es₁ l es₂) :
    IsSfnEntry (T.slot mem (i + (es₁.length + lfnCount o.nm))) o.sfn := by
  obtain ⟨es, e, -, he, hl⟩ := h.written
  have hlen := congrArg List.length h.entries
  rw [length_entries, List.length_append, List.length_append, h.written.length] at hlen
  have hget : (T.entries mem i)[es₁.length + lfnCount o.nm]? = some (T.slot mem (i + (es₁.length + lfnCount o.nm))) :=
    entries_getElem? (by omega)
  rw [h.entries, hl, List.getElem?_append_right (by omega), List.append_assoc, Nat.add_sub_cancel_left,
    List.getElem?_append_right (by simp)] at hget
  rw [List.length_map, List.length_reverse, List.length_range, Nat.sub_self] at hget
  rwa [← Option.some.inj hget]

theorem Splits.index_lt {T : DirTable} {mem : ℕ → UInt8} {i : ℕ} {os os₁ os₂ : List DirObject} {o : DirObject}
    {es₁ l es₂ : List DirEntry} (h : Splits os (T.entries mem i) os₁ o os₂ es₁ l es₂) :
    i + (es₁.length + lfnCount o.nm) < T.slots := by
  have hlen := congrArg List.length h.entries
  rw [length_entries, List.length_append, List.length_append, h.written.length] at hlen
  omega

/-- The entries after an object. -/
theorem Splits.rest_entries {T : DirTable} {mem : ℕ → UInt8} {i : ℕ} {os os₁ os₂ : List DirObject} {o : DirObject}
    {es₁ l es₂ : List DirEntry} (h : Splits os (T.entries mem i) os₁ o os₂ es₁ l es₂) :
    Holds os₂ (T.entries mem (i + (es₁.length + lfnCount o.nm) + 1)) := by
  have heq := entries_append (h.entries.trans (List.append_assoc _ _ _).symm)
  rw [List.length_append, h.written.length, ← Nat.add_assoc, ← Nat.add_assoc] at heq
  rw [← Nat.add_assoc, ← heq]
  exact h.rest

/-- The directory object without where it is on the drive. -/
def DIR_.bare (dp : DIR_) : DIR_ := { dp with clust := 0, sect := 0, dir := 0 }

namespace OpenDir

variable {N : ℕ} {d : OpenDir} {T : DirTable} {others : List (List ℕ)} {i fuel : ℕ} {ord sum : UInt8}
  {look : DIR_ → DirEntry → UInt8 → UInt8 → Verdict} {q : List ℕ}

/-- The entries that are seen stay the same. -/
theorem Lies.entries {d' : OpenDir} (h : d.Lies T others) (hs : Same d d') :
    T.entries d'.fs.seen = T.entries d.fs.seen := by
  funext j
  exact entries_congr fun j hj => h.slot hs hj

/-- The object asks for the same name. -/
structure Asks (dp dp' : DIR_) : Prop where
  sclust : dp'.sclust = dp.sclust
  fn : dp'.fn = dp.fn
  ns : dp'.ns = dp.ns
  hasLfn : dp'.hasLfn = dp.hasLfn

theorem Asks.refl (dp : DIR_) : Asks dp dp := ⟨rfl, rfl, rfl, rfl⟩

theorem Asks.trans {dp dp' dp'' : DIR_} (h : Asks dp dp') (h' : Asks dp' dp'') : Asks dp dp'' :=
  ⟨h'.sclust.trans h.sclust, h'.fn.trans h.fn, h'.ns.trans h.ns, h'.hasLfn.trans h.hasLfn⟩

theorem Moved.asks {dp dp' : DIR_} (h : Moved dp dp') : Asks dp dp' := by
  unfold Moved at h
  rw [h]
  exact ⟨rfl, rfl, rfl, rfl⟩

/-- What the loop answers, with the buffer for long names. -/
structure Scanned (d : OpenDir) (T : DirTable) (look : DIR_ → DirEntry → UInt8 → UInt8 → Verdict) (i : ℕ) (ord sum : UInt8)
    (I : (ℕ → ℕ) → Prop) (r : Except FRESULT Unit) (d' : OpenDir) : Prop where
  asks : Asks d.dp d'.dp
  buf : I d'.dp.lfnbuf
  answer : (r = .ok () ∧ (∃ j < T.slots, T.At d'.dp j ∧ d'.entry = T.slot d.fs.seen j) ∧
      scan look (T.entries d.fs.seen i) d.dp.bare ord sum = some d'.dp.bare) ∨
    (r = .error .FR_NO_FILE ∧ scan look (T.entries d.fs.seen i) d.dp.bare ord sum = none)

theorem scanLoop_looks (h : d.Lies T others) (hN : d.fs.drv.failures ≤ N)
    (hlook : ∀ dp e ord sum, look dp.bare e ord sum = look dp e ord sum) {I : (ℕ → ℕ) → Prop}
    (hI : ∀ dp e ord sum ord' sum' idx buf, look dp e ord sum = .goOn ord' sum' idx buf → I dp.lfnbuf → I buf)
    (hbuf : I d.dp.lfnbuf) (hat : T.At d.dp i) (hi : i < T.slots) (hfuel : T.slots ≤ i + fuel) :
    Looks N (scanLoop look fuel ord sum) d (d.Scanned T look i ord sum I) := by
  induction fuel generalizing d i ord sum with
  | zero => omega
  | succ fuel ih =>
    unfold scanLoop
    refine Looks.bind (toWindow_looks h hN hat hi) ?_ ?_
    swap
    · rintro e d' - ⟨he, -⟩
      cases he
    rintro - d₁ hs₁ ⟨-, hdp, -, hentry⟩
    refine Looks.read_bind ?_
    have h₁ := h.same hs₁
    have hent := h.entries hs₁
    have hcons : T.entries d.fs.seen i = T.slot d.fs.seen i :: T.entries d.fs.seen (i + 1) := entries_of_lt hi
    rw [hentry, hdp]
    rcases hv : look d.dp (T.slot d.fs.seen i) ord sum with _ | idx | ⟨ord', sum', idx, buf⟩
    · refine Looks.leave hs₁.shows.valid ⟨by rw [hdp]; exact Asks.refl _, by rwa [hdp], .inr ⟨rfl, ?_⟩⟩
      rw [hcons, scan, hlook, hv]
    · refine Looks.setDir hs₁.shows.valid rfl ⟨by dsimp only; rw [hdp]; exact ⟨rfl, rfl, rfl, rfl⟩, by dsimp only; rwa [hdp],
        .inl ⟨rfl, ⟨i, hi, ?_, hentry⟩, ?_⟩⟩
      · dsimp only
        rw [hdp]
        exact ⟨hat.index, hat.clust, hat.sect, hat.dir⟩
      · rw [hcons, scan, hlook, hv]
        dsimp only
        rw [hdp]
        rfl
    · have hkeep := hI _ _ _ _ _ _ _ _ hv hbuf
      have hsame : Same d₁ { d₁ with dp := { d₁.dp with lfnIdx := idx, lfnbuf := buf } } :=
        ⟨FATFS.Shows.refl hs₁.shows.valid, ⟨rfl, rfl⟩, rfl⟩
      have h₂ := h₁.same hsame
      have hat₂ : T.At { d₁.dp with lfnIdx := idx, lfnbuf := buf } i := by
        rw [hdp]
        exact ⟨hat.index, hat.clust, hat.sect, hat.dir⟩
      have hN₂ := hs₁.failures_le hN
      have hscan : scan look (T.entries d.fs.seen i) d.dp.bare ord sum = scan look (T.entries d.fs.seen (i + 1))
          { d.dp.bare with index := d.dp.index + 1, lfnIdx := idx, lfnbuf := buf } ord' sum' := by
        rw [hcons, scan, hlook, hv]
        rfl
      refine Looks.setDir_bind hs₁.shows.valid rfl ?_
      by_cases hlt : i + 1 < T.slots
      · refine Looks.bind (dirNext_looks h₂ hN₂ hat₂ false hlt) ?_ ?_
        swap
        · rintro e d' - ⟨he, -⟩
          cases he
        rintro - d₃ hs₃ ⟨-, hat₃, hmoved⟩
        -- the object is at the next entry, and is as the scan has it
        have hbare : d₃.dp.bare = { d.dp.bare with index := d.dp.index + 1, lfnIdx := idx, lfnbuf := buf } := by
          unfold Moved at hmoved
          rw [hmoved, hat₃.index, hat.index, hdp]
          rfl
        have hbuf₃ : d₃.dp.lfnbuf = buf := congrArg DIR_.lfnbuf hbare
        refine (ih (h₂.same hs₃) (hs₃.failures_le hN₂) (by rwa [hbuf₃]) hat₃ hlt (by omega)).mono fun r d' _ hr => ?_
        have hent₃ : T.entries d₃.fs.seen = T.entries d.fs.seen := (h₂.entries hs₃).trans hent
        refine ⟨?_, hr.buf, ?_⟩
        · have hasks := hmoved.asks.trans hr.asks
          rw [hdp] at hasks
          exact ⟨hasks.sclust, hasks.fn, hasks.ns, hasks.hasLfn⟩
        · rw [hscan, ← hbare, ← hent₃]
          refine hr.answer.imp_left ?_
          rintro ⟨hok, ⟨j, hj, hat', hentry'⟩, hsome⟩
          refine ⟨hok, ⟨j, hj, hat', ?_⟩, hsome⟩
          rw [hentry', h₂.slot hs₃ hj]
          exact h.slot (hs₁.trans hsame) hj
      · refine Looks.bind (dirNext_end h₂ hN₂ hat₂ (by omega)) ?_ ?_
        · rintro a d' - ⟨he, -⟩
          cases he
        rintro e d' - ⟨he, hmoved⟩
        have hasks := hmoved.asks
        unfold Moved at hmoved
        rw [hdp] at hasks
        refine ⟨⟨hasks.sclust, hasks.fn, hasks.ns, hasks.hasLfn⟩, by rw [hmoved]; exact hkeep, .inr ⟨he, ?_⟩⟩
        rw [hscan, entries_of_le (by omega)]
        rfl

/-- The buffer holds the long name that is asked for. -/
def Query (dp : DIR_) (q : List ℕ) : Prop := dp.hasLfn = true → IsName q ∧ HoldsName dp.lfnbuf q

theorem findEntry_bare (dp : DIR_) (e : DirEntry) (ord sum : UInt8) :
    findEntry dp.bare e ord sum = findEntry dp e ord sum := by
  unfold findEntry
  rfl

theorem readEntry_bare (dp : DIR_) (e : DirEntry) (ord sum : UInt8) :
    readEntry dp.bare e ord sum = readEntry dp e ord sum := by
  unfold readEntry
  rfl

/-- The buffer is not changed by looking for a name. -/
theorem findEntry_buf {dp : DIR_} {e : DirEntry} {ord' sum' : UInt8} {idx : ℕ} {buf : ℕ → ℕ}
    (h : findEntry dp e ord sum = .goOn ord' sum' idx buf) : buf = dp.lfnbuf := by
  unfold findEntry at h
  dsimp only at h
  split_ifs at h <;> exact (Verdict.goOn.inj h).2.2.2.symm

/-- An object was found, where its entries are. -/
structure FoundAt (d : OpenDir) (T : DirTable) (os : List DirObject) (q : List ℕ) (d' : OpenDir) (os₁ : List DirObject)
    (o : DirObject) (os₂ : List DirObject) (es₁ l es₂ : List DirEntry) : Prop where
  splits : Splits os (T.entries d.fs.seen 0) os₁ o os₂ es₁ l es₂
  first : ∀ o' ∈ os₁, ¬ o'.Matches d.dp q
  isMatch : o.Matches d.dp q
  at' : T.At d'.dp (es₁.length + lfnCount o.nm)
  entry : IsSfnEntry d'.entry o.sfn
  lfnIdx : d'.dp.lfnIdx = if d.dp.hasLfn = true ∧ o.Named q then es₁.length else 0xFFFF

/-- **Finding an object.** -/
theorem dirFind_looks {os : List DirObject} (h : d.Lies T others) (hN : d.fs.drv.failures ≤ N)
    (hos : Holds os (T.entries d.fs.seen 0)) (hq : Query d.dp q) :
    Looks N dirFind d fun r d' => Asks d.dp d'.dp ∧ d'.dp.lfnbuf = d.dp.lfnbuf ∧
      ((r = .error .FR_NO_FILE ∧ ∀ o ∈ os, ¬ o.Matches d.dp q) ∨
        (r = .ok () ∧ ∃ os₁ o os₂ es₁ l es₂, FoundAt d T os q d' os₁ o os₂ es₁ l es₂)) := by
  unfold dirFind
  refine Looks.bind (dirSdi_looks h hN (slots_pos h.placed)) (fun _ d₁ hs ⟨_, hat, hmoved⟩ => ?_)
    fun e d' _ ⟨he, _⟩ => by cases he
  have hdp : d₁.dp.bare = { d.dp.bare with index := 0 } := by
    unfold Moved at hmoved
    rw [hmoved, hat.index]
    rfl
  have hent := h.entries hs
  have hbuf : d₁.dp.bare.lfnbuf = d.dp.bare.lfnbuf := by rw [hdp]
  refine (scanLoop_looks (I := (· = d.dp.lfnbuf)) (h.same hs) (hs.failures_le hN) findEntry_bare
    (fun dp e ord sum ord' sum' idx buf hgo heq => (findEntry_buf hgo).trans heq) hbuf hat (slots_pos h.placed)
    (by have := slots_le h.placed; omega)).mono fun r d' _ hr => ?_
  have hasks := hmoved.asks
  refine ⟨hasks.trans hr.asks, hr.buf, ?_⟩
  obtain ⟨rfl, ⟨j, hj, hat', hentry⟩, hscan⟩ | ⟨rfl, hscan⟩ := hr.answer
  · rw [hent, hdp] at hscan
    obtain ⟨-, hnone⟩ | ⟨os₁, o, os₂, es₁, l, es₂, hsplit, hfirst, hm, hsome⟩ :=
      scan_find hos { d.dp.bare with index := 0 } 0xFF hq
    · rw [hscan] at hnone
      cases hnone
    · rw [hscan] at hsome
      have hdp' := Option.some.inj hsome
      have hidx : d'.dp.index = 0 + es₁.length + lfnCount o.nm := congrArg DIR_.index hdp'
      have hlfn : d'.dp.lfnIdx = if d.dp.hasLfn = true ∧ o.Named q then 0 + es₁.length else 0xFFFF :=
        congrArg DIR_.lfnIdx hdp'
      rw [Nat.zero_add] at hidx hlfn
      have hj' : j = 0 + (es₁.length + lfnCount o.nm) := by
        rw [Nat.zero_add, ← hidx, hat'.index]
      rw [h.slot hs hj, hj'] at hentry
      rw [hj', Nat.zero_add] at hat'
      refine .inr ⟨rfl, os₁, o, os₂, es₁, l, es₂, hsplit, hfirst, hm, hat', ?_, hlfn⟩
      rw [hentry]
      exact hsplit.slot
  · rw [hent, hdp] at hscan
    obtain ⟨hnone, -⟩ | ⟨os₁, o, os₂, es₁, l, es₂, -, -, -, hsome⟩ :=
      scan_find hos { d.dp.bare with index := 0 } 0xFF hq
    · exact .inl ⟨rfl, hnone⟩
    · rw [hscan] at hsome
      cases hsome

/-- The answer of a function as a result. -/
def answerOf : Except FRESULT Unit → FRESULT
  | .ok _ => .FR_OK
  | .error res => res

/-- A function whose answer is looked at. -/
theorem Looks.attempt_bind {α : Type} {m : DirCode Unit} {k : FRESULT → DirCode α}
    {Q : Except FRESULT Unit → OpenDir → Prop} {R : Except FRESULT α → OpenDir → Prop} (h : Looks N m d Q)
    (hk : ∀ r d', Same d d' → Q r d' → Looks N (k (answerOf r)) d' R)
    (hfail : ∀ d', Same d d' → d'.fs.drv.failures < N → Looks N (k .FR_DISK_ERR) d' R) : Looks N (attempt m >>= k) d R := by
  obtain ⟨r, d₁, hm, hs, hr⟩ := h
  have hat : attempt m d = some (.ok (answerOf r), d₁) := by
    unfold attempt
    rw [hm]
    cases r <;> rfl
  have hnext : Looks N (k (answerOf r)) d₁ R := by
    obtain hq | ⟨rfl, hf⟩ := hr
    · exact hk r d₁ hs hq
    · exact hfail d₁ hs hf
  obtain ⟨r', d₂, hk', hr'⟩ := hnext
  exact ⟨r', d₂, (Code.bind_ok hat).trans hk', hr'.of_same hs⟩

/-- An object was read, where its entries are. -/
structure ReadAt (d : OpenDir) (T : DirTable) (i : ℕ) (os : List DirObject) (d' : OpenDir) (os₁ : List DirObject)
    (o : DirObject) (os₂ : List DirObject) (es₁ l es₂ : List DirEntry) : Prop where
  splits : Splits os (T.entries d.fs.seen i) os₁ o os₂ es₁ l es₂
  first : ∀ o' ∈ os₁, o'.Dotted
  plain : ¬ o.Dotted
  at' : T.At d'.dp (i + es₁.length + lfnCount o.nm)
  entry : IsSfnEntry d'.entry o.sfn
  name : o.Listed → HoldsName d'.dp.lfnbuf o.nm
  lfnIdx : d'.dp.lfnIdx = if o.Listed then i + es₁.length else 0xFFFF

theorem readLoop_looks {os : List DirObject} (h : d.Lies T others) (hN : d.fs.drv.failures ≤ N) (hat : T.At d.dp i)
    (hi : i < T.slots) (hos : Holds os (T.entries d.fs.seen i)) :
    Looks N (scanLoop readEntry (2 ^ 16) 0xFF 0xFF) d fun r d' => Asks d.dp d'.dp ∧
      ((r = .error .FR_NO_FILE ∧ ∀ o ∈ os, o.Dotted) ∨
        (r = .ok () ∧ ∃ os₁ o os₂ es₁ l es₂, ReadAt d T i os d' os₁ o os₂ es₁ l es₂)) := by
  refine (scanLoop_looks (I := fun _ => True) h hN readEntry_bare (fun _ _ _ _ _ _ _ _ _ _ => trivial) trivial hat hi
    (by have := slots_le h.placed; omega)).mono fun r d' _ hr => ⟨hr.asks, ?_⟩
  obtain ⟨rfl, ⟨j, hj, hat', hentry⟩, hscan⟩ | ⟨rfl, hscan⟩ := hr.answer
  · obtain ⟨-, hnone⟩ | ⟨os₁, o, os₂, es₁, l, es₂, buf, hsplit, hfirst, hm, hname, hsome⟩ := scan_read hos d.dp.bare 0xFF
    · rw [hscan] at hnone
      cases hnone
    · rw [hscan] at hsome
      have hdp' := Option.some.inj hsome
      have hidx : d'.dp.index = d.dp.index + es₁.length + lfnCount o.nm := congrArg DIR_.index hdp'
      have hlfn : d'.dp.lfnIdx = if o.Listed then d.dp.index + es₁.length else 0xFFFF := congrArg DIR_.lfnIdx hdp'
      have hbuf : d'.dp.lfnbuf = buf := congrArg DIR_.lfnbuf hdp'
      rw [hat.index] at hidx hlfn
      have hj' : j = i + (es₁.length + lfnCount o.nm) := by rw [← Nat.add_assoc, ← hidx, hat'.index]
      rw [hj'] at hentry
      rw [hj', ← Nat.add_assoc] at hat'
      refine .inr ⟨rfl, os₁, o, os₂, es₁, l, es₂, hsplit, hfirst, hm, hat', ?_, by rwa [hbuf], hlfn⟩
      rw [hentry]
      exact hsplit.slot
  · obtain ⟨hnone, -⟩ | ⟨os₁, o, os₂, es₁, l, es₂, buf, -, -, -, -, hsome⟩ := scan_read hos d.dp.bare 0xFF
    · exact .inl ⟨rfl, hnone⟩
    · rw [hscan] at hsome
      cases hsome

/-- **Reading an object.** -/
theorem dirRead_looks {os : List DirObject} (h : d.Lies T others) (hN : d.fs.drv.failures ≤ N) (hat : T.At d.dp i)
    (hi : i < T.slots) (hos : Holds os (T.entries d.fs.seen i)) :
    Looks N dirRead d fun r d' => Asks d.dp d'.dp ∧
      ((r = .error .FR_NO_FILE ∧ (∀ o ∈ os, o.Dotted) ∧ d'.dp.sect = 0) ∨
        (r = .ok () ∧ ∃ os₁ o os₂ es₁ l es₂, ReadAt d T i os d' os₁ o os₂ es₁ l es₂)) := by
  have hsect : d.dp.sect ≠ 0 := by
    have := (sect_plain h.placed hi).2.2.2
    rw [hat.sect]
    omega
  unfold dirRead
  refine Looks.read_bind ?_
  rw [if_neg hsect]
  refine Looks.attempt_bind (readLoop_looks h hN hat hi hos) (fun r d₁ hs hr => ?_) fun d₁ hs hf => ?_
  · obtain ⟨hasks, ⟨rfl, hdot⟩ | ⟨rfl, hread⟩⟩ := hr
    · rw [Code.onlyIf, if_pos (by decide)]
      refine Looks.setDir_bind hs.shows.valid rfl ?_
      exact Looks.leave hs.shows.valid ⟨⟨hasks.sclust, hasks.fn, hasks.ns, hasks.hasLfn⟩, .inl ⟨rfl, hdot, rfl⟩⟩
    · exact Looks.pure hs.shows.valid ⟨hasks, .inr ⟨rfl, hread⟩⟩
  · rw [Code.onlyIf, if_pos (by decide)]
    refine Looks.setDir_bind hs.shows.valid rfl ?_
    exact Looks.failed hs.shows.valid hf

/-! ## Listing -/

/-- The end of the table is no error. -/
theorem Looks.atEnd {m : DirCode Unit} {Q R : Except FRESULT Unit → OpenDir → Prop} (h : Looks N m d Q)
    (hok : ∀ d', Same d d' → Q (.ok ()) d' → R (.ok ()) d')
    (herror : ∀ e d', Same d d' → Q (.error e) d' →
      e = .FR_NO_FILE ∧ R (.ok ()) { d' with dp := { d'.dp with sect := 0 } }) : Looks N (atEnd m) d R := by
  unfold OpenDir.atEnd
  refine Looks.attempt_bind h (fun r d' hs hq => ?_) fun d' hs hf => ?_
  · cases r with
    | ok a => exact Looks.pure hs.shows.valid (hok d' hs hq)
    | error e =>
      obtain ⟨rfl, hr⟩ := herror e d' hs hq
      rw [Code.onlyIf, if_pos (by decide)]
      refine Looks.setDir_bind hs.shows.valid rfl ?_
      exact Looks.pure hs.shows.valid hr
  · exact Looks.failed hs.shows.valid hf

/-- These objects are still to be read. -/
def Reading (d : OpenDir) (T : DirTable) (os : List DirObject) : Prop :=
  (d.dp.sect = 0 ∧ os = []) ∨ ∃ i < T.slots, T.At d.dp i ∧ Holds os (T.entries d.fs.seen i)

/-- What is answered tells about the object. -/
def Reports (o : DirObject) (fno : DirEntry × Option (ℕ → ℕ)) : Prop :=
  IsSfnEntry fno.1 o.sfn ∧ (o.Listed → ∃ buf, fno.2 = some buf ∧ HoldsName buf o.nm) ∧ (¬ o.Listed → fno.2 = none)

theorem dirNext_ended (hv : d.fs.Valid) (hz : d.dp.sect = 0) :
    Looks N (dirNext false) d fun r d' => r = .error .FR_NO_FILE ∧ d' = d := by
  unfold dirNext
  refine Looks.read_bind (Looks.ite (fun _ => Looks.leave hv ⟨rfl, rfl⟩) fun hne => absurd (.inr hz) hne)

theorem dirRead_ended (hv : d.fs.Valid) (hz : d.dp.sect = 0) :
    Looks N dirRead d fun r d' => r = .error .FR_NO_FILE ∧ Asks d.dp d'.dp ∧ d'.dp.sect = 0 := by
  unfold dirRead
  refine Looks.read_bind ?_
  rw [if_pos hz]
  refine Looks.attempt_bind (Q := fun r d' => r = .error .FR_NO_FILE ∧ d' = d) (Looks.leave hv ⟨rfl, rfl⟩)
    (fun r d' hs hr => ?_) fun d' hs hf => ?_
  · obtain ⟨rfl, rfl⟩ := hr
    rw [Code.onlyIf, if_pos (by decide)]
    refine Looks.setDir_bind hv rfl ?_
    exact Looks.leave hv ⟨rfl, ⟨rfl, rfl, rfl, rfl⟩, rfl⟩
  · rw [Code.onlyIf, if_pos (by decide)]
    refine Looks.setDir_bind hs.shows.valid rfl ?_
    exact Looks.failed hs.shows.valid hf

/-- The directory object is at the entry after an object, or at the end. -/
theorem dirNext_reading {os₂ : List DirObject} {j : ℕ} (h : d.Lies T others)
    (hN : d.fs.drv.failures ≤ N) (hj : j < T.slots) (hat : T.At d.dp j) (hrest : Holds os₂ (T.entries d.fs.seen (j + 1))) :
    Looks N (atEnd (dirNext false)) d fun r d' => r = .ok () ∧ Asks d.dp d'.dp ∧ d'.Reading T os₂ := by
  by_cases hlt : j + 1 < T.slots
  · refine Looks.atEnd (dirNext_looks h hN hat false hlt) (fun d' hs ⟨_, hat', hm⟩ => ?_) fun e d' _ ⟨he, _⟩ => by cases he
    refine ⟨rfl, hm.asks, .inr ⟨j + 1, hlt, hat', ?_⟩⟩
    rwa [h.entries hs]
  · refine Looks.atEnd (dirNext_end h hN hat (by omega)) (fun d' _ ⟨he, _⟩ => by cases he) fun e d' _ ⟨he, hm⟩ => ?_
    have hasks := hm.asks
    rw [entries_of_le (by omega)] at hrest
    exact ⟨Except.error.inj he, rfl, ⟨hasks.sclust, hasks.fn, hasks.ns, hasks.hasLfn⟩, .inl ⟨rfl, hrest.of_nil⟩⟩

/-- At the end nothing is answered. -/
theorem fileinfo_ended (hv : d.fs.Valid) (hz : d.dp.sect = 0) :
    Looks N (atEnd (dirNext false) >>= fun _ => pure d.fileinfo) d fun r d' =>
      r = .ok none ∧ Asks d.dp d'.dp ∧ d'.Reading T [] := by
  have hinfo : d.fileinfo = none := by rw [fileinfo, if_neg (not_not.2 hz)]
  rw [hinfo]
  refine Looks.bind (Q := fun r d' => r = .ok () ∧ Asks d.dp d'.dp ∧ d'.dp.sect = 0)
    (Looks.atEnd (dirNext_ended hv hz) (fun d' _ ⟨he, _⟩ => by cases he) fun e d' _ ⟨he, hd⟩ => ?_)
    (fun _ d₁ hs ⟨_, ha, hz₁⟩ => Looks.pure hs.shows.valid ⟨rfl, ha, .inl ⟨hz₁, rfl⟩⟩) fun e d' _ ⟨he, _⟩ => by cases he
  rw [hd]
  exact ⟨Except.error.inj he, rfl, ⟨rfl, rfl, rfl, rfl⟩, rfl⟩

/-- **Listing.** The next object that is not `.` or `..` is answered, or nothing when there is none. -/
theorem fReaddir_looks {os : List DirObject} (h : d.Lies T others) (hN : d.fs.drv.failures ≤ N) (hr : d.Reading T os) :
    Looks N fReaddir d fun r d' => Asks d.dp d'.dp ∧
      (((∀ o ∈ os, o.Dotted) ∧ r = .ok none ∧ d'.Reading T []) ∨
        ∃ os₁ o os₂ fno, os = os₁ ++ o :: os₂ ∧ (∀ o' ∈ os₁, o'.Dotted) ∧ ¬ o.Dotted ∧ r = .ok (some fno) ∧
          Reports o fno ∧ d'.Reading T os₂) := by
  have hv := h.alloc.valid
  unfold fReaddir
  obtain ⟨hz, rfl⟩ | ⟨i, hi, hat, hos⟩ := hr
  · refine Looks.bind (Q := fun r d' => r = .ok () ∧ Asks d.dp d'.dp ∧ d'.dp.sect = 0)
      (Looks.atEnd (dirRead_ended hv hz) (fun d' _ ⟨he, _⟩ => by cases he) fun e d' _ ⟨he, ha, _⟩ =>
        ⟨Except.error.inj he, rfl, ⟨ha.sclust, ha.fn, ha.ns, ha.hasLfn⟩, rfl⟩)
      (fun _ d₁ hs ⟨_, ha, hz₁⟩ => Looks.read_bind ?_) fun e d' _ ⟨he, _⟩ => by cases he
    exact (fileinfo_ended hs.shows.valid hz₁).mono fun r d' _ ⟨hr, ha', hread⟩ =>
      ⟨ha.trans ha', .inl ⟨fun o ho => absurd ho List.not_mem_nil, hr, hread⟩⟩
  · refine Looks.bind (Q := fun r d' => r = .ok () ∧ Asks d.dp d'.dp ∧ (((∀ o ∈ os, o.Dotted) ∧ d'.dp.sect = 0) ∨
        ∃ os₁ o os₂ es₁ l es₂, ReadAt d T i os d' os₁ o os₂ es₁ l es₂))
      (Looks.atEnd (dirRead_looks h hN hat hi hos) (fun d' _ ⟨ha, hr⟩ => ⟨rfl, ha, ?_⟩) fun e d' _ ⟨ha, hr⟩ => ?_)
      (fun _ d₁ hs ⟨_, ha, hr⟩ => Looks.read_bind ?_) fun e d' _ ⟨he, _⟩ => by cases he
    · obtain ⟨he, -⟩ | ⟨-, hread⟩ := hr
      · cases he
      · exact .inr hread
    · obtain ⟨he, hdot, -⟩ | ⟨he, -⟩ := hr
      · exact ⟨Except.error.inj he, rfl, ⟨ha.sclust, ha.fn, ha.ns, ha.hasLfn⟩, .inl ⟨hdot, rfl⟩⟩
      · cases he
    · obtain ⟨hdot, hz⟩ | ⟨os₁, o, os₂, es₁, l, es₂, hread⟩ := hr
      · exact (fileinfo_ended hs.shows.valid hz).mono fun r d' _ ⟨hr, ha', hread⟩ =>
          ⟨ha.trans ha', .inl ⟨hdot, hr, hread⟩⟩
      · have hj := hread.splits.index_lt
        have hrest := hread.splits.rest_entries
        rw [← Nat.add_assoc] at hj hrest
        rw [← h.entries hs] at hrest
        refine Looks.bind (dirNext_reading (h.same hs) (hs.failures_le hN) hj hread.at' hrest)
          (fun _ d₂ hs₂ ⟨_, ha', hread'⟩ => ?_) fun e d' _ ⟨he, _⟩ => by cases he
        have hsect : d₁.dp.sect ≠ 0 := by
          have := (sect_plain h.placed hj).2.2.2
          rw [hread.at'.sect]
          omega
        refine Looks.pure hs₂.shows.valid ⟨ha.trans ha', .inr ⟨os₁, o, os₂,
          (d₁.entry, if d₁.dp.lfnIdx ≠ 0xFFFF then some d₁.dp.lfnbuf else none), hread.splits.objects, hread.first,
          hread.plain, ?_, ⟨hread.entry, fun hl => ?_, fun hl => ?_⟩, hread'⟩⟩
        · rw [fileinfo, if_pos hsect]
        · have hpos : 0 < lfnCount o.nm := Nat.pos_of_ne_zero (mt lfnCount_eq_zero.1 hl.1)
          have hle := slots_le h.placed
          refine ⟨d₁.dp.lfnbuf, if_pos ?_, hread.name hl⟩
          rw [hread.lfnIdx, if_pos hl]
          omega
        · refine if_neg (not_not.2 ?_)
          rw [hread.lfnIdx, if_neg hl]

end OpenDir

end Miosix
