import MiosixKernel.Fat.Directory

/-!
# Objects in a directory

A file or a directory has an entry with its short name, and before it those with the parts of its long name.

* `DirObject`, `Holds`: the objects in the entries of a table;
* `Front`: the entries before an object;
* `scan`: looking at entries one after the other;
* **`scan_find`**: the first object with a name is found, by its long name or by its short one;
* **`scan_read`**: the next object is read, with its long name.
-/

namespace Miosix

open Lib OpenDir

/-- A file or a directory: its long name, which is empty when it has none, and its short name. -/
structure DirObject where
  nm : List ℕ
  sfn : List UInt8

/-- The entry with a short name. -/
structure IsSfnEntry (e : DirEntry) (sfn : List UInt8) : Prop where
  name : load e 0 11 = sfn
  attr : e 11 &&& amVol = 0

/-- An entry that was deleted, or that is a volume label. -/
def Unused (e : DirEntry) : Prop := e 0 ≠ 0 ∧ (e 0 = deletedMark ∨ e 11 &&& amMask = amVol)

namespace DirObject

/-- Names that can be in a directory. -/
structure Sound (o : DirObject) : Prop where
  name : IsName o.nm
  length : o.nm.length ≤ maxLfn
  sfn : o.sfn.length = 11
  head : o.sfn.headD 0 ≠ 0 ∧ o.sfn.headD 0 ≠ deletedMark

/-- These are the entries of the object. -/
def Written (o : DirObject) (l : List DirEntry) : Prop :=
  ∃ es e, (∀ k < lfnCount o.nm, IsLfnEntry (es k) o.nm k (sumSfn o.sfn)) ∧ IsSfnEntry e o.sfn ∧
    l = (List.range (lfnCount o.nm)).reverse.map es ++ [e]

/-- The object has this long name, up to capitals. One with 255 characters is the name of no object. -/
def Named (o : DirObject) (q : List ℕ) : Prop :=
  o.nm ≠ [] ∧ o.nm.length < maxLfn ∧ o.nm.map ffWtoupper = q.map ffWtoupper

/-- The object is looked for, by a long name or by the short one. -/
def Matches (o : DirObject) (dp : DIR_) (q : List ℕ) : Prop :=
  (dp.hasLfn = true ∧ o.Named q) ∨ (dp.ns &&& nsLoss = 0 ∧ o.sfn = dp.fn)

/-- The long name is read: with 254 characters there is no room for what ends it. -/
def Listed (o : DirObject) : Prop := o.nm ≠ [] ∧ o.nm.length + 1 < maxLfn

/-- The directory itself, or the one that it is in. -/
def Dotted (o : DirObject) : Prop := o.sfn.headD 0 = 0x2E

instance (o : DirObject) : Decidable o.Listed := inferInstanceAs (Decidable (_ ∧ _))

instance (o : DirObject) : Decidable o.Dotted := inferInstanceAs (Decidable (_ = _))

instance (o : DirObject) (q : List ℕ) : Decidable (o.Named q) := inferInstanceAs (Decidable (_ ∧ _ ∧ _))

instance (o : DirObject) (dp : DIR_) (q : List ℕ) : Decidable (o.Matches dp q) := inferInstanceAs (Decidable (_ ∨ _))

end DirObject

/-- The objects in the entries of a table. -/
inductive Holds : List DirObject → List DirEntry → Prop
  | free {es : List DirEntry} (h : ∀ e ∈ es, e 0 = 0) : Holds [] es
  | skip {os : List DirObject} {es : List DirEntry} {e : DirEntry} (h : Unused e) (h' : Holds os es) : Holds os (e :: es)
  | object {os : List DirObject} {es l : List DirEntry} {o : DirObject} (h : o.Sound) (hw : o.Written l)
      (h' : Holds os es) : Holds (o :: os) (l ++ es)

/-- Entries that may come before others. -/
def Front (os : List DirObject) (es : List DirEntry) : Prop := ∀ os' es', Holds os' es' → Holds (os ++ os') (es ++ es')

/-- An object and its entries, with those before and after it. -/
structure Splits (os : List DirObject) (es : List DirEntry) (os₁ : List DirObject) (o : DirObject) (os₂ : List DirObject)
    (es₁ l es₂ : List DirEntry) : Prop where
  objects : os = os₁ ++ o :: os₂
  entries : es = es₁ ++ (l ++ es₂)
  front : Front os₁ es₁
  sound : o.Sound
  written : o.Written l
  rest : Holds os₂ es₂

/-- Looking at entries, one after the other. -/
def scan (look : DIR_ → DirEntry → UInt8 → UInt8 → Verdict) : List DirEntry → DIR_ → UInt8 → UInt8 → Option DIR_
  | [], _, _, _ => none
  | e :: es, dp, ord, sum =>
    match look dp e ord sum with
    | .ended => none
    | .found lfnIdx => some { dp with lfnIdx := lfnIdx }
    | .goOn ord sum lfnIdx lfnbuf =>
      scan look es { dp with index := dp.index + 1, lfnIdx := lfnIdx, lfnbuf := lfnbuf } ord sum

/-! ## The entries of a table -/

section Entries

variable {os os' : List DirObject} {es es' l : List DirEntry} {o : DirObject} {e : DirEntry}

theorem Front.nil : Front [] [] := fun _ _ h => h

theorem Front.skip (hu : Unused e) (h : Front os es) : Front os (e :: es) := fun os' es' h' => .skip hu (h os' es' h')

theorem Front.object (hs : o.Sound) (hw : o.Written l) (h : Front os es) : Front (o :: os) (l ++ es) := fun os' es' h' => by
  rw [List.append_assoc]
  exact .object hs hw (h os' es' h')

/-- Deleted entries. -/
theorem Holds.skips (hu : ∀ e ∈ l, Unused e) (h : Holds os es) : Holds os (l ++ es) := by
  induction l with
  | nil => exact h
  | cons e l ih => exact .skip (hu e List.mem_cons_self) (ih fun e' he' => hu e' (List.mem_cons_of_mem _ he'))

/-- More entries at the end, which were never used. -/
theorem Holds.grow (h : Holds os es) (hz : ∀ e ∈ es', e 0 = 0) : Holds os (es ++ es') := by
  induction h with
  | free h => exact .free fun e he => (List.mem_append.1 he).elim (h e) (hz e)
  | skip hu _ ih => exact .skip hu ih
  | object hs hw _ ih =>
    rw [List.append_assoc]
    exact .object hs hw ih

/-- Only the bytes of the entry matter. -/
theorem IsSfnEntry.congr {e' : DirEntry} {sfn : List UInt8} (h : IsSfnEntry e sfn) (heq : ∀ x < 32, e' x = e x) :
    IsSfnEntry e' sfn := by
  refine ⟨?_, by rw [heq 11 (by decide)]; exact h.attr⟩
  rw [← h.name]
  exact load_congr fun x _ hx => heq x (by omega)

theorem DirObject.Written.map {f : DirEntry → DirEntry} (hf : ∀ e, ∀ x < 32, f e x = e x) (h : o.Written l) :
    o.Written (l.map f) := by
  obtain ⟨es, e, hparts, hsfn, rfl⟩ := h
  refine ⟨f ∘ es, f e, fun k hk => (hparts k hk).congr (hf _), hsfn.congr (hf e), ?_⟩
  rw [List.map_append, List.map_map]
  rfl

/-- Only the bytes of the entries matter. -/
theorem Holds.map {f : DirEntry → DirEntry} (hf : ∀ e, ∀ x < 32, f e x = e x) (h : Holds os es) : Holds os (es.map f) := by
  induction h with
  | free h =>
    refine .free fun e' he' => ?_
    obtain ⟨e, he, rfl⟩ := List.mem_map.1 he'
    rw [hf e 0 (by decide), h e he]
  | skip hu _ ih =>
    refine .skip ?_ ih
    unfold Unused
    rw [hf _ 0 (by decide), hf _ 11 (by decide)]
    exact hu
  | object hs hw _ ih =>
    rw [List.map_append]
    exact .object hs (hw.map hf) ih

/-- The first byte of the entry is that of the name. -/
theorem IsSfnEntry.head {sfn : List UInt8} (h : IsSfnEntry e sfn) : sfn.headD 0 = e 0 := by
  rw [← h.name]
  rfl

theorem Splits.skip {os₁ os₂ : List DirObject} {es₁ es₂ : List DirEntry} (hu : Unused e)
    (h : Splits os es os₁ o os₂ es₁ l es₂) : Splits os (e :: es) os₁ o os₂ (e :: es₁) l es₂ :=
  ⟨h.objects, by rw [h.entries]; rfl, h.front.skip hu, h.sound, h.written, h.rest⟩

theorem Splits.object {os₁ os₂ : List DirObject} {es₁ es₂ l' : List DirEntry} {o' : DirObject} (hs : o'.Sound)
    (hw : o'.Written l') (h : Splits os es os₁ o os₂ es₁ l es₂) :
    Splits (o' :: os) (l' ++ es) (o' :: os₁) o os₂ (l' ++ es₁) l es₂ :=
  ⟨by rw [h.objects]; rfl, by rw [h.entries, List.append_assoc], h.front.object hs hw, h.sound, h.written, h.rest⟩

theorem DirObject.Sound.count_le (h : o.Sound) : lfnCount o.nm ≤ 20 := by
  have hlen := h.length
  unfold lfnCount
  unfold maxLfn at hlen
  omega

theorem lfnCount_eq_zero {nm : List ℕ} : lfnCount nm = 0 ↔ nm = [] := by
  rw [← List.length_eq_zero_iff]
  unfold lfnCount
  omega

theorem DirObject.Written.length (h : o.Written l) : l.length = lfnCount o.nm + 1 := by
  obtain ⟨es, e, -, -, rfl⟩ := h
  simp

theorem Holds.of_nil {os : List DirObject} (h : Holds os []) : os = [] := by
  generalize hes : ([] : List DirEntry) = es at h
  cases h with
  | free => rfl
  | skip => cases hes
  | object _ hw =>
    have hlen := hw.length
    obtain ⟨rfl, -⟩ := List.append_eq_nil_iff.1 hes.symm
    cases hlen

end Entries

/-! ## Finding -/

section Find

variable {os : List DirObject} {rest l : List DirEntry} {o : DirObject} {e : DirEntry} {dp : DIR_} {ord sum s : UInt8}
  {nm q : List ℕ} {k n : ℕ} {es : ℕ → DirEntry}

/-- What is made of the number of a part. -/
theorem ord_bytes : ∀ k < 20, (UInt8.ofNat (k + 1) &&& 0x40 = 0 ∧ UInt8.ofNat (k + 1 + 0x40) &&& 0x40 ≠ 0) ∧
    UInt8.ofNat (k + 1 + 0x40) - 0x40 = UInt8.ofNat (k + 1) ∧ UInt8.ofNat (k + 1) - 1 = UInt8.ofNat k ∧
    UInt8.ofNat (k + 1) ≠ 0xFF ∧ UInt8.ofNat k ≠ 0xFF := by decide

theorem ord_bytes_ne : ∀ k < 20, (UInt8.ofNat (k + 1) ≠ 0 ∧ UInt8.ofNat (k + 1 + 0x40) ≠ 0) ∧
    (UInt8.ofNat (k + 1) ≠ deletedMark ∧ UInt8.ofNat (k + 1 + 0x40) ≠ deletedMark) ∧
    UInt8.ofNat (k + 1) ≠ 0x2E ∧ UInt8.ofNat (k + 1 + 0x40) ≠ 0x2E := by decide

/-- The first byte of a part. -/
theorem IsLfnEntry.first (h : IsLfnEntry e nm k s) :
    e 0 = if nm.length ≤ 13 * (k + 1) then UInt8.ofNat (k + 1 + 0x40) else UInt8.ofNat (k + 1) := by
  have heq := (UInt8.ofNat_toNat (x := e 0)).symm
  rw [h.ord] at heq
  split_ifs at heq ⊢ <;> exact heq

theorem findEntry_lfn (h : IsLfnEntry e nm k s) (hk : k < 20) (hlfn : dp.hasLfn = true) :
    findEntry dp e ord sum = if nm.length ≤ 13 * (k + 1) then
        .goOn (if cmpLfn dp.lfnbuf e then UInt8.ofNat k else 0xFF) s dp.index dp.lfnbuf
      else .goOn (if ord = UInt8.ofNat (k + 1) ∧ sum = s ∧ cmpLfn dp.lfnbuf e then UInt8.ofNat k else 0xFF) sum
        dp.lfnIdx dp.lfnbuf := by
  obtain ⟨⟨h1, h2⟩, h3, h4, h5, h6⟩ := ord_bytes k hk
  obtain ⟨⟨h7, h8⟩, ⟨h9, h10⟩, -⟩ := ord_bytes_ne k hk
  have ha : e 11 &&& amMask = amLfn := by rw [h.attr]; decide
  unfold findEntry
  rw [h.first, ha, h.sum]
  by_cases hlast : nm.length ≤ 13 * (k + 1)
  · simp only [if_pos hlast]
    rw [if_neg h8, if_neg (not_or.2 ⟨h10, fun hd => hd.2 rfl⟩), if_pos trivial, if_pos hlfn, if_pos h2, if_pos h2, if_pos h2,
      if_pos h2, h3, h4]
    simp
  · simp only [if_neg hlast]
    rw [if_neg h7, if_neg (not_or.2 ⟨h9, fun hd => hd.2 rfl⟩), if_pos trivial, if_pos hlfn]
    simp only [h1, ne_eq, not_true_eq_false, if_false]
    by_cases ho : ord = UInt8.ofNat (k + 1)
    · rw [ho, h4]
    · rw [if_neg fun hc => ho hc.1.symm, if_neg fun hc => ho hc.1]

/-- Without a name to compare with, the parts are passed over. -/
theorem findEntry_skip (h : IsLfnEntry e nm k s) (hk : k < 20) (hlfn : dp.hasLfn = false) :
    findEntry dp e ord sum = .goOn ord sum dp.lfnIdx dp.lfnbuf := by
  obtain ⟨⟨h7, h8⟩, ⟨h9, h10⟩, -⟩ := ord_bytes_ne k hk
  have ha : e 11 &&& amMask = amLfn := by rw [h.attr]; decide
  have hne : e 0 ≠ 0 ∧ e 0 ≠ deletedMark := by
    rw [h.first]
    split_ifs
    · exact ⟨h8, h10⟩
    · exact ⟨h7, h9⟩
  unfold findEntry
  rw [ha, if_neg hne.1, if_neg (not_or.2 ⟨hne.2, fun hd => hd.2 rfl⟩), if_pos rfl, hlfn, if_neg Bool.false_ne_true]

/-- The attributes of an entry with a short name. -/
theorem IsSfnEntry.attrs {sfn : List UInt8} (h : IsSfnEntry e sfn) :
    (e 11 &&& amMask) &&& amVol = 0 ∧ e 11 &&& amMask ≠ amLfn ∧ e 11 &&& amMask ≠ amVol := by
  have hz : (e 11 &&& amMask) &&& amVol = 0 := by
    rw [UInt8.and_assoc, UInt8.and_comm amMask, ← UInt8.and_assoc, h.attr, UInt8.zero_and]
  refine ⟨hz, fun hc => ?_, fun hc => ?_⟩
  · rw [hc] at hz
    exact absurd hz (by decide)
  · rw [hc] at hz
    exact absurd hz (by decide)

theorem findEntry_sfn (hs : o.Sound) (h : IsSfnEntry e o.sfn) : findEntry dp e ord sum =
    if ord = 0 ∧ sum = sumSfn o.sfn then .found dp.lfnIdx
    else if dp.ns &&& nsLoss = 0 ∧ o.sfn = dp.fn then .found 0xFFFF else .goOn 0xFF sum 0xFFFF dp.lfnbuf := by
  obtain ⟨hz, hlfn, -⟩ := h.attrs
  have hne := hs.head
  rw [h.head] at hne
  unfold findEntry
  rw [h.name, if_neg hne.1, if_neg (not_or.2 ⟨hne.2, fun hd => hd.1 hz⟩), if_neg hlfn]

theorem findEntry_unused (h : Unused e) : findEntry dp e ord sum = .goOn 0xFF sum dp.lfnIdx dp.lfnbuf := by
  unfold findEntry
  rw [if_neg h.1, if_pos (h.2.imp_right fun ha => ?_)]
  rw [ha]
  decide

/-- The parts of a long name, once its last part was looked at. -/
theorem scan_parts (hn : n < lfnCount nm) (h20 : lfnCount nm ≤ 20) (hes : ∀ k < n, IsLfnEntry (es k) nm k s)
    (rest : List DirEntry) (dp : DIR_) (hlfn : dp.hasLfn = true) (ord : UInt8) (hord : ord = UInt8.ofNat n ∨ ord = 0xFF) :
    ∃ ord', scan findEntry ((List.range n).reverse.map es ++ rest) dp ord s =
      scan findEntry rest { dp with index := dp.index + n } ord' s ∧
      (ord' = 0 ↔ ord = UInt8.ofNat n ∧ ∀ k < n, cmpLfn dp.lfnbuf (es k) = true) := by
  induction n generalizing ord dp with
  | zero =>
    refine ⟨ord, rfl, fun hz => ⟨hz, fun k hk => absurd hk (Nat.not_lt_zero k)⟩, fun hz => hz.1⟩
  | succ n ih =>
    obtain ⟨-, -, -, h5, h6⟩ := ord_bytes n (by omega)
    have hlast : ¬ nm.length ≤ 13 * (n + 1) := by
      unfold lfnCount at hn
      omega
    rw [List.range_succ, List.reverse_append, List.reverse_singleton, List.map_append, List.map_singleton,
      List.append_assoc, List.singleton_append, scan, findEntry_lfn (hes n (Nat.lt_succ_self n)) (by omega) hlfn,
      if_neg hlast]
    obtain ⟨ord', heq, hiff⟩ := ih (Nat.lt_of_succ_lt hn) (fun k hk => hes k (Nat.lt_succ_of_lt hk))
      { dp with index := dp.index + 1 } hlfn
      (if ord = UInt8.ofNat (n + 1) ∧ s = s ∧ cmpLfn dp.lfnbuf (es n) = true then UInt8.ofNat n else 0xFF)
      (by split_ifs; exacts [.inl rfl, .inr rfl])
    refine ⟨ord', heq.trans ?_, hiff.trans ⟨fun ⟨ho, hall⟩ => ?_, fun ⟨ho, hall⟩ =>
      ⟨if_pos ⟨ho, rfl, hall n (Nat.lt_succ_self n)⟩, fun k hk => hall k (Nat.lt_succ_of_lt hk)⟩⟩⟩
    · rw [show dp.index + (n + 1) = dp.index + 1 + n by omega]
    · have hc : ord = UInt8.ofNat (n + 1) ∧ s = s ∧ cmpLfn dp.lfnbuf (es n) = true := by
        by_contra hc
        rw [if_neg hc] at ho
        exact h6 ho.symm
      refine ⟨hc.1, fun k hk => ?_⟩
      rcases Nat.lt_succ_iff_lt_or_eq.1 hk with hlt | rfl
      · exact hall k hlt
      · exact hc.2.2

/-- The parts of a long name. -/
theorem scan_name (hs : o.Sound) (hes : ∀ k < lfnCount o.nm, IsLfnEntry (es k) o.nm k s) (hne : o.nm ≠ [])
    (hlfn : dp.hasLfn = true) (rest : List DirEntry) (ord sum : UInt8) :
    ∃ ord', scan findEntry ((List.range (lfnCount o.nm)).reverse.map es ++ rest) dp ord sum =
      scan findEntry rest { dp with index := dp.index + lfnCount o.nm, lfnIdx := dp.index } ord' s ∧
      (ord' = 0 ↔ ∀ k < lfnCount o.nm, cmpLfn dp.lfnbuf (es k) = true) := by
  have h20 := hs.count_le
  obtain ⟨n, hn⟩ : ∃ n, lfnCount o.nm = n + 1 := ⟨lfnCount o.nm - 1, by have := mt lfnCount_eq_zero.1 hne; omega⟩
  have hlast : o.nm.length ≤ 13 * (n + 1) := by
    unfold lfnCount at hn
    omega
  rw [hn, List.range_succ, List.reverse_append, List.reverse_singleton, List.map_append, List.map_singleton,
    List.append_assoc, List.singleton_append, scan, findEntry_lfn (hes n (by omega)) (by omega) hlfn, if_pos hlast]
  obtain ⟨-, -, -, -, h6⟩ := ord_bytes n (by omega)
  obtain ⟨ord', heq, hiff⟩ := scan_parts (n := n) (by omega) h20 (fun k hk => hes k (by omega)) rest
    { dp with index := dp.index + 1, lfnIdx := dp.index } hlfn
    (if cmpLfn dp.lfnbuf (es n) then UInt8.ofNat n else 0xFF) (by split_ifs; exacts [.inl rfl, .inr rfl])
  refine ⟨ord', heq.trans ?_, hiff.trans ⟨fun ⟨ho, hall⟩ k hk => ?_, fun hall => ⟨if_pos ?_, fun k hk => ?_⟩⟩⟩
  · rw [show dp.index + (n + 1) = dp.index + 1 + n by omega]
  · have hc : cmpLfn dp.lfnbuf (es n) = true := by
      by_contra hc
      rw [if_neg hc] at ho
      exact h6 ho.symm
    rcases Nat.lt_succ_iff_lt_or_eq.1 hk with hlt | rfl
    · exact hall k hlt
    · exact hc
  · exact hall n (Nat.lt_succ_self n)
  · exact hall k (Nat.lt_succ_of_lt hk)

theorem scan_skip (h20 : n ≤ 20) (hes : ∀ k < n, IsLfnEntry (es k) nm k s) (dp : DIR_) (hlfn : dp.hasLfn = false) :
    scan findEntry ((List.range n).reverse.map es ++ rest) dp ord sum =
      scan findEntry rest { dp with index := dp.index + n } ord sum := by
  induction n generalizing dp with
  | zero => rfl
  | succ n ih =>
    rw [List.range_succ, List.reverse_append, List.reverse_singleton, List.map_append, List.map_singleton,
      List.append_assoc, List.singleton_append, scan, findEntry_skip (hes n (Nat.lt_succ_self n)) (by omega) hlfn]
    refine (ih (by omega) (fun k hk => hes k (Nat.lt_succ_of_lt hk)) { dp with index := dp.index + 1 } hlfn).trans ?_
    rw [show dp.index + (n + 1) = dp.index + 1 + n by omega]


/-- The entries of one object: it is found, or they are passed over. -/
theorem scan_object (rest : List DirEntry) (sum : UInt8) (hs : o.Sound) (hw : o.Written l)
    (hq : dp.hasLfn = true → IsName q ∧ HoldsName dp.lfnbuf q) :
    (o.Matches dp q ∧ scan findEntry (l ++ rest) dp 0xFF sum = some { dp with
      index := dp.index + lfnCount o.nm
      lfnIdx := if dp.hasLfn = true ∧ o.Named q then dp.index else 0xFFFF }) ∨
    (¬ o.Matches dp q ∧ ∃ sum', scan findEntry (l ++ rest) dp 0xFF sum =
      scan findEntry rest { dp with index := dp.index + (lfnCount o.nm + 1), lfnIdx := 0xFFFF } 0xFF sum') := by
  obtain ⟨es, e, hes, he, rfl⟩ := hw
  -- at the entry with the short name it is known if the long one is that of the object
  have hsfn : ∀ ord sum lfnIdx, (ord = 0 ∧ sum = sumSfn o.sfn ↔ dp.hasLfn = true ∧ o.Named q) →
      (dp.hasLfn = true ∧ o.Named q → lfnIdx = dp.index) →
      (o.Matches dp q ∧ scan findEntry (e :: rest) { dp with index := dp.index + lfnCount o.nm, lfnIdx := lfnIdx } ord sum =
        some { dp with
          index := dp.index + lfnCount o.nm
          lfnIdx := if dp.hasLfn = true ∧ o.Named q then dp.index else 0xFFFF }) ∨
      (¬ o.Matches dp q ∧ ∃ sum', scan findEntry (e :: rest)
          { dp with index := dp.index + lfnCount o.nm, lfnIdx := lfnIdx } ord sum =
        scan findEntry rest { dp with index := dp.index + (lfnCount o.nm + 1), lfnIdx := 0xFFFF } 0xFF sum') := by
    intro ord sum lfnIdx hiff hidx
    rw [scan, findEntry_sfn hs he]
    by_cases hnamed : dp.hasLfn = true ∧ o.Named q
    · rw [if_pos (hiff.2 hnamed), if_pos hnamed, hidx hnamed]
      exact .inl ⟨.inl hnamed, rfl⟩
    · rw [if_neg fun hc => hnamed (hiff.1 hc), if_neg hnamed]
      by_cases hshort : dp.ns &&& nsLoss = 0 ∧ o.sfn = dp.fn
      · rw [if_pos hshort]
        exact .inl ⟨.inr hshort, rfl⟩
      · rw [if_neg hshort]
        exact .inr ⟨not_or.2 ⟨hnamed, hshort⟩, sum, rfl⟩
  rw [List.append_assoc, List.singleton_append]
  by_cases hlfn : dp.hasLfn = true
  · by_cases hne : o.nm = []
    · have hz := lfnCount_eq_zero.2 hne
      have h := hsfn 0xFF sum dp.lfnIdx ⟨fun hc => absurd hc.1 (by decide), fun hc => absurd hne hc.2.1⟩
        fun hc => absurd hne hc.2.1
      rw [hz] at h ⊢
      exact h
    · obtain ⟨hn, hbuf⟩ := hq hlfn
      obtain ⟨ord', heq, hiff⟩ := scan_name hs hes hne hlfn (e :: rest) 0xFF sum
      rw [heq]
      refine hsfn ord' (sumSfn o.sfn) dp.index ?_ fun _ => rfl
      rw [hiff, cmpLfn_all hs.name hn hbuf (List.length_pos_iff.2 hne) hs.length hes]
      exact ⟨fun hc => ⟨hlfn, hne, hc.1⟩, fun hc => ⟨hc.2.2, rfl⟩⟩
  · have hlfn' : dp.hasLfn = false := by simpa using hlfn
    rw [scan_skip hs.count_le hes dp hlfn']
    exact hsfn 0xFF sum dp.lfnIdx ⟨fun hc => absurd hc.1 (by decide), fun hc => absurd hc.1 hlfn⟩
      fun hc => absurd hc.1 hlfn

/-- **Finding.** The first object with the name is found, where its entries are. -/
theorem scan_find (h : Holds os l) (dp : DIR_) (sum : UInt8) (hq : dp.hasLfn = true → IsName q ∧ HoldsName dp.lfnbuf q) :
    ((∀ o ∈ os, ¬ o.Matches dp q) ∧ scan findEntry l dp 0xFF sum = none) ∨
    ∃ os₁ o os₂ es₁ eo es₂, Splits os l os₁ o os₂ es₁ eo es₂ ∧ (∀ o' ∈ os₁, ¬ o'.Matches dp q) ∧ o.Matches dp q ∧
      scan findEntry l dp 0xFF sum = some { dp with
        index := dp.index + es₁.length + lfnCount o.nm
        lfnIdx := if dp.hasLfn = true ∧ o.Named q then dp.index + es₁.length else 0xFFFF } := by
  induction h generalizing dp sum with
  | @free es hz =>
    refine .inl ⟨fun o ho => absurd ho List.not_mem_nil, ?_⟩
    cases es with
    | nil => rfl
    | cons e es => rw [scan, findEntry, if_pos (hz e List.mem_cons_self)]
  | @skip os es e hu h ih =>
    rw [scan, findEntry_unused hu]
    obtain ⟨hnone, heq⟩ | ⟨os₁, o, os₂, es₁, eo, es₂, hsplit, hnone, ho, heq⟩ :=
      ih { dp with index := dp.index + 1 } sum hq
    · exact .inl ⟨hnone, heq⟩
    · refine .inr ⟨os₁, o, os₂, e :: es₁, eo, es₂, hsplit.skip hu, hnone, ho, heq.trans ?_⟩
      rw [List.length_cons, show dp.index + (es₁.length + 1) = dp.index + 1 + es₁.length by omega]
  | @object os es l o hs hw h ih =>
    obtain ⟨hm, heq⟩ | ⟨hm, sum', heq⟩ := scan_object es sum hs hw hq
    · exact .inr ⟨[], o, os, [], l, es, ⟨rfl, rfl, Front.nil, hs, hw, h⟩, fun o' ho' => absurd ho' List.not_mem_nil, hm,
        heq⟩
    · rw [heq]
      obtain ⟨hnone, heq'⟩ | ⟨os₁, o', os₂, es₁, eo, es₂, hsplit, hnone, ho, heq'⟩ :=
        ih { dp with index := dp.index + (lfnCount o.nm + 1), lfnIdx := 0xFFFF } sum' hq
      · refine .inl ⟨fun o' ho' => ?_, heq'⟩
        obtain rfl | ho' := List.mem_cons.1 ho'
        · exact hm
        · exact hnone o' ho'
      · refine .inr ⟨o :: os₁, o', os₂, l ++ es₁, eo, es₂, hsplit.object hs hw, fun o'' ho'' => ?_, ho, heq'.trans ?_⟩
        · obtain rfl | ho'' := List.mem_cons.1 ho''
          · exact hm
          · exact hnone o'' ho''
        · rw [List.length_append, hw.length,
            show dp.index + (lfnCount o.nm + 1 + es₁.length) = dp.index + (lfnCount o.nm + 1) + es₁.length by omega]

end Find

/-! ## Reading -/

section Read

variable {os : List DirObject} {l : List DirEntry} {o : DirObject} {e : DirEntry} {dp : DIR_} {ord sum s : UInt8}
  {nm : List ℕ} {k n : ℕ} {es : ℕ → DirEntry}

theorem readEntry_lfn (h : IsLfnEntry e nm k s) (hk : k < 20) :
    readEntry dp e ord sum = if nm.length ≤ 13 * (k + 1) then
        .goOn (if (pickLfn dp.lfnbuf e).1 then UInt8.ofNat k else 0xFF) s dp.index (pickLfn dp.lfnbuf e).2
      else if ord = UInt8.ofNat (k + 1) ∧ sum = s then
        .goOn (if (pickLfn dp.lfnbuf e).1 then UInt8.ofNat k else 0xFF) sum dp.lfnIdx (pickLfn dp.lfnbuf e).2
      else .goOn 0xFF sum dp.lfnIdx dp.lfnbuf := by
  obtain ⟨⟨h1, h2⟩, h3, h4, h5, h6⟩ := ord_bytes k hk
  obtain ⟨⟨h7, h8⟩, ⟨h9, h10⟩, h11, h12⟩ := ord_bytes_ne k hk
  have ha : e 11 &&& amMask = amLfn := by rw [h.attr]; decide
  have hvol : amLfn ≠ amVol := by decide
  unfold readEntry
  rw [h.first, ha, h.sum]
  by_cases hlast : nm.length ≤ 13 * (k + 1)
  · simp only [if_pos hlast]
    rw [if_neg h8, if_neg (not_or.2 ⟨h10, not_or.2 ⟨h12, hvol⟩⟩), if_pos trivial]
    simp only [h2, ne_eq, not_false_eq_true, if_true, h3, h4, and_self]
  · simp only [if_neg hlast]
    rw [if_neg h7, if_neg (not_or.2 ⟨h9, not_or.2 ⟨h11, hvol⟩⟩), if_pos trivial]
    simp only [h1, ne_eq, not_true_eq_false, if_false]
    by_cases ho : ord = UInt8.ofNat (k + 1) ∧ sum = s
    · rw [if_pos ⟨ho.1.symm, ho.2⟩, if_pos ho, ho.1, h4]
    · rw [if_neg fun hc => ho ⟨hc.1.symm, hc.2⟩, if_neg ho]

theorem readEntry_sfn (hs : o.Sound) (h : IsSfnEntry e o.sfn) : readEntry dp e ord sum =
    if o.Dotted then .goOn 0xFF sum dp.lfnIdx dp.lfnbuf
    else .found (if ord ≠ 0 ∨ sum ≠ sumSfn o.sfn then 0xFFFF else dp.lfnIdx) := by
  obtain ⟨-, hlfn, hvol⟩ := h.attrs
  have hne := hs.head
  rw [h.head] at hne
  have hiff : o.Dotted ↔ e 0 = 0x2E := by rw [DirObject.Dotted, h.head]
  unfold readEntry
  rw [h.name, if_neg hne.1]
  by_cases hdot : o.Dotted
  · rw [if_pos (.inr (.inl (hiff.1 hdot))), if_pos hdot]
  · rw [if_neg (not_or.2 ⟨hne.2, not_or.2 ⟨mt hiff.2 hdot, hvol⟩⟩), if_neg hlfn, if_neg hdot]

theorem readEntry_unused (h : Unused e) : readEntry dp e ord sum = .goOn 0xFF sum dp.lfnIdx dp.lfnbuf := by
  unfold readEntry
  rw [if_neg h.1, if_pos (h.2.imp_right .inr)]

/-- The parts of a long name, from some part on. -/
theorem read_parts (hnm : IsName nm) (hlen : nm.length + 1 < maxLfn) (hn : n < lfnCount nm)
    (hes : ∀ k < n, IsLfnEntry (es k) nm k s) (rest : List DirEntry) (dp : DIR_)
    (hbuf : ∀ j ≤ nm.length, 13 * n ≤ j → dp.lfnbuf j = nameWord nm j) :
    ∃ lfnbuf, scan readEntry ((List.range n).reverse.map es ++ rest) dp (UInt8.ofNat n) s =
      scan readEntry rest { dp with index := dp.index + n, lfnbuf := lfnbuf } 0 s ∧ HoldsName lfnbuf nm := by
  have hmax : maxLfn = 255 := rfl
  induction n generalizing dp with
  | zero => exact ⟨dp.lfnbuf, rfl, fun j hj => hbuf j hj (Nat.zero_le _)⟩
  | succ n ih =>
    have h20 : n < 20 := by
      unfold lfnCount at hn
      omega
    have hlast : ¬ nm.length ≤ 13 * (n + 1) := by
      unfold lfnCount at hn
      omega
    obtain ⟨buf, hpick, hbuf'⟩ := pickLfn_step dp.lfnbuf hnm hlen (hes n (Nat.lt_succ_self n)) (by omega) fun _ => hbuf
    rw [List.range_succ, List.reverse_append, List.reverse_singleton, List.map_append, List.map_singleton,
      List.append_assoc, List.singleton_append, scan, readEntry_lfn (hes n (Nat.lt_succ_self n)) h20, if_neg hlast,
      if_pos ⟨rfl, rfl⟩, hpick, if_pos rfl]
    obtain ⟨lfnbuf, heq, hholds⟩ := ih (by omega) (fun k hk => hes k (Nat.lt_succ_of_lt hk))
      { dp with index := dp.index + 1, lfnbuf := buf } hbuf'
    refine ⟨lfnbuf, heq.trans ?_, hholds⟩
    rw [show dp.index + (n + 1) = dp.index + 1 + n by omega]

/-- They are passed over after a part that was not read. -/
theorem read_dead (hn : n < lfnCount nm) (h20 : n < 20) (hes : ∀ k < n, IsLfnEntry (es k) nm k s) (rest : List DirEntry)
    (dp : DIR_) : scan readEntry ((List.range n).reverse.map es ++ rest) dp 0xFF s =
      scan readEntry rest { dp with index := dp.index + n } 0xFF s := by
  induction n generalizing dp with
  | zero => rfl
  | succ n ih =>
    obtain ⟨-, -, -, h5, -⟩ := ord_bytes n (by omega)
    have hlast : ¬ nm.length ≤ 13 * (n + 1) := by
      unfold lfnCount at hn
      omega
    rw [List.range_succ, List.reverse_append, List.reverse_singleton, List.map_append, List.map_singleton,
      List.append_assoc, List.singleton_append, scan, readEntry_lfn (hes n (Nat.lt_succ_self n)) (by omega), if_neg hlast,
      if_neg fun hc => h5 hc.1.symm]
    refine (ih (by omega) (by omega) (fun k hk => hes k (Nat.lt_succ_of_lt hk)) { dp with index := dp.index + 1 }).trans ?_
    rw [show dp.index + (n + 1) = dp.index + 1 + n by omega]

/-- The parts of a long name. -/
theorem read_name (hs : o.Sound) (hes : ∀ k < lfnCount o.nm, IsLfnEntry (es k) o.nm k s) (hne : o.nm ≠ [])
    (rest : List DirEntry) (dp : DIR_) (ord sum : UInt8) :
    ∃ ord' lfnbuf, scan readEntry ((List.range (lfnCount o.nm)).reverse.map es ++ rest) dp ord sum =
      scan readEntry rest { dp with index := dp.index + lfnCount o.nm, lfnIdx := dp.index, lfnbuf := lfnbuf } ord' s ∧
      (ord' = 0 ↔ o.Listed) ∧ (o.Listed → HoldsName lfnbuf o.nm) := by
  have h20 := hs.count_le
  have hmax : maxLfn = 255 := rfl
  obtain ⟨n, hn⟩ : ∃ n, lfnCount o.nm = n + 1 := ⟨lfnCount o.nm - 1, by have := mt lfnCount_eq_zero.1 hne; omega⟩
  have hlast : o.nm.length ≤ 13 * (n + 1) := by
    unfold lfnCount at hn
    omega
  rw [hn, List.range_succ, List.reverse_append, List.reverse_singleton, List.map_append, List.map_singleton,
    List.append_assoc, List.singleton_append, scan, readEntry_lfn (hes n (by omega)) (by omega), if_pos hlast]
  have hindex : dp.index + (n + 1) = dp.index + 1 + n := by omega
  by_cases hlen : o.nm.length + 1 < maxLfn
  · obtain ⟨buf, hpick, hbuf⟩ := pickLfn_step dp.lfnbuf hs.name hlen (hes n (by omega)) (by omega)
      fun hlt => by omega
    obtain ⟨lfnbuf, heq, hholds⟩ := read_parts hs.name hlen (n := n) (by omega) (fun k hk => hes k (by omega)) rest
      { dp with index := dp.index + 1, lfnIdx := dp.index, lfnbuf := buf } hbuf
    rw [hpick, if_pos rfl, hindex]
    exact ⟨0, lfnbuf, heq, ⟨fun _ => ⟨hne, hlen⟩, fun _ => rfl⟩, fun _ => hholds⟩
  · have hpick := pickLfn_full dp.lfnbuf hs.name hs.length (by omega) (hes n (by omega)) hn.symm
    rw [hpick, if_neg Bool.false_ne_true, hindex]
    exact ⟨0xFF, _, read_dead (n := n) (by omega) (by omega) (fun k hk => hes k (by omega)) rest
      { dp with index := dp.index + 1, lfnIdx := dp.index, lfnbuf := (pickLfn dp.lfnbuf (es n)).2 },
      ⟨fun hc => absurd hc (by decide), fun hc => absurd hc.2 hlen⟩, fun hc => absurd hc.2 hlen⟩

/-- **Reading.** The next object is read, and its long name when there is room for it. -/
theorem scan_read (h : Holds os l) (dp : DIR_) (sum : UInt8) :
    ((∀ o ∈ os, o.Dotted) ∧ scan readEntry l dp 0xFF sum = none) ∨
    ∃ os₁ o os₂ es₁ eo es₂ lfnbuf, Splits os l os₁ o os₂ es₁ eo es₂ ∧ (∀ o' ∈ os₁, o'.Dotted) ∧ ¬ o.Dotted ∧
      (o.Listed → HoldsName lfnbuf o.nm) ∧ scan readEntry l dp 0xFF sum = some { dp with
        index := dp.index + es₁.length + lfnCount o.nm
        lfnIdx := if o.Listed then dp.index + es₁.length else 0xFFFF
        lfnbuf := lfnbuf } := by
  induction h generalizing dp sum with
  | @free es hz =>
    refine .inl ⟨fun o ho => absurd ho List.not_mem_nil, ?_⟩
    cases es with
    | nil => rfl
    | cons e es => rw [scan, readEntry, if_pos (hz e List.mem_cons_self)]
  | @skip os es e hu h ih =>
    rw [scan, readEntry_unused hu]
    obtain ⟨hnone, heq⟩ | ⟨os₁, o, os₂, es₁, eo, es₂, lfnbuf, hsplit, hnone, ho, hbuf, heq⟩ :=
      ih { dp with index := dp.index + 1 } sum
    · exact .inl ⟨hnone, heq⟩
    · refine .inr ⟨os₁, o, os₂, e :: es₁, eo, es₂, lfnbuf, hsplit.skip hu, hnone, ho, hbuf, heq.trans ?_⟩
      rw [List.length_cons, show dp.index + (es₁.length + 1) = dp.index + 1 + es₁.length by omega]
  | @object os es l o hs hw h ih =>
    obtain ⟨ents, e, hes, he, rfl⟩ := id hw
    -- the parts of the long name, if there is one
    obtain ⟨ord', sum', idx, buf, heq, hiff, hbuf⟩ : ∃ ord' sum' idx buf,
        scan readEntry (((List.range (lfnCount o.nm)).reverse.map ents ++ [e]) ++ es) dp 0xFF sum =
          scan readEntry (e :: es) { dp with index := dp.index + lfnCount o.nm, lfnIdx := idx, lfnbuf := buf } ord' sum' ∧
        (ord' = 0 ∧ sum' = sumSfn o.sfn ↔ o.Listed) ∧ (o.Listed → HoldsName buf o.nm ∧ idx = dp.index) := by
      rw [List.append_assoc, List.singleton_append]
      by_cases hne : o.nm = []
      · rw [lfnCount_eq_zero.2 hne]
        exact ⟨0xFF, sum, dp.lfnIdx, dp.lfnbuf, rfl, ⟨fun hc => absurd hc.1 (by decide), fun hc => absurd hne hc.1⟩,
          fun hc => absurd hne hc.1⟩
      · obtain ⟨ord', buf, heq, hiff, hbuf⟩ := read_name hs hes hne (e :: es) dp 0xFF sum
        exact ⟨ord', sumSfn o.sfn, dp.index, buf, heq, by rw [← hiff]; exact ⟨And.left, fun hc => ⟨hc, rfl⟩⟩,
          fun hc => ⟨hbuf hc, rfl⟩⟩
    rw [heq, scan, readEntry_sfn hs he]
    by_cases hdot : o.Dotted
    · rw [if_pos hdot]
      obtain ⟨hnone, heq'⟩ | ⟨os₁, o', os₂, es₁, eo, es₂, lfnbuf, hsplit, hnone, ho, hbuf', heq'⟩ := ih
        { dp with index := dp.index + lfnCount o.nm + 1, lfnIdx := idx, lfnbuf := buf } sum'
      · exact .inl ⟨List.forall_mem_cons.2 ⟨hdot, hnone⟩, heq'⟩
      · refine .inr ⟨o :: os₁, o', os₂, _, eo, es₂, lfnbuf, hsplit.object hs hw, List.forall_mem_cons.2 ⟨hdot, hnone⟩, ho,
          hbuf', heq'.trans ?_⟩
        rw [List.length_append, hw.length,
          show dp.index + (lfnCount o.nm + 1 + es₁.length) = dp.index + lfnCount o.nm + 1 + es₁.length by omega]
    · rw [if_neg hdot]
      refine .inr ⟨[], o, os, [], _, es, buf, ⟨rfl, rfl, Front.nil, hs, hw, h⟩, fun o' ho' => absurd ho' List.not_mem_nil,
        hdot, fun hl => (hbuf hl).1, ?_⟩
      by_cases hl : o.Listed
      · obtain ⟨hord, hsum⟩ := hiff.2 hl
        rw [if_neg (not_or.2 ⟨not_not.2 hord, not_not.2 hsum⟩), if_pos hl, (hbuf hl).2]
        rfl
      · have hc : ord' ≠ 0 ∨ sum' ≠ sumSfn o.sfn := by
          by_contra hc
          rw [not_or, not_not, not_not] at hc
          exact hl (hiff.1 hc)
        rw [if_pos hc, if_neg hl]
        rfl

end Read

end Miosix
