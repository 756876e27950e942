import MiosixKernel.Filesystem.StringPart
import MiosixKernel.Lib.Blocks

/-!
# Live parts of a string

The parts of a string are destroyed in the reverse order of their construction, so they are a stack. Below each of them is
the memory as it was before its construction.

* `Fits`: a live part, in a memory where other parts may have put a NUL;
* `PartStack`: the live parts, the innermost first;
* `IsCopy`: an object that is not a part;
* `Session`, `Session.Inv`: the objects of a run, and what holds of them.
-/

namespace Miosix

open Lib PathResolution

variable {O : Type}

/-- A part of the string. -/
structure Part (O : Type) where
  obj : O
  /-- The substring. -/
  value : List Char
  /-- Is it a part of a `const char*`? -/
  ofConst : Bool
deriving DecidableEq

/-- The block that the object at `o` owns. -/
def owned (obj : O → Option (StringPart O)) (o : O) : Option ℕ := (obj o).bind StringPart.block

/-- A place that lives as long as the parts. -/
def Outlives (obj : O → Option (StringPart O)) (ps : List (Part O)) (q : Place) : Prop :=
  q = .base ∨ ∃ p ∈ ps, ∃ b, owned obj p.obj = some b ∧ q = .heap b

/-- The characters of a part as they are now. -/
def segment (mem : Memory) (r : StringPart O) : List Char :=
  match r.ptr with
  | .place q => (((mem q).getD []).take r.index).drop r.offset
  | .saved _ => []

/-- A live part `p` whose object is `r`. The parts `ps` are `p` and those that were there when it was built. -/
inductive Fits (obj : O → Option (StringPart O)) (ps : List (Part O)) (p : Part O) (r : StringPart O) (mem : Memory) : Prop
  /-- It is part of a string, with a NUL at its end. -/
  | placed {q : Place} {l : List Char} (ptr : r.ptr = .place q) (lives : Outlives obj ps q) (mem : mem q = some l)
    (mark : l[r.index]? = some nul) (value : Marked nul p.value ((l.take r.index).drop r.offset))
    (owner : r.owner = true → r.type = .CSTR ∧ ∃ b, q = .heap b)
    (cppstr : r.type = .CPPSTR → r.index + 1 = l.length → r.saved = nul)
    (ccstr : r.type = .CCSTR → r.saved = nul ∧ r.offset = 0) (small : r.index < npos)
  /-- It is empty, and some `saved` is its string. -/
  | empty {p' : Part O} {r' : StringPart O} (ptr : r.ptr = .saved p'.obj) (live : p' ∈ ps) (object : obj p'.obj = some r')
    (saved : r'.saved = nul) (mine : r.saved = nul) (index : r.index = 0) (owner : r.owner = false) (type : r.type = .CSTR)
    (value : p.value = [])

/-- The live parts of the string `base`, the innermost first. -/
inductive PartStack (base : List Char) (obj : O → Option (StringPart O)) : List (Part O) → Memory → Prop
  | nil {mem : Memory} (h : mem .base = some (base ++ [nul])) : PartStack base obj [] mem
  | cons {mem : Memory} {p : Part O} {ps : List (Part O)} {r : StringPart O} (object : obj p.obj = some r)
    (fits : Fits obj (p :: ps) p r mem) (value : segment mem r = p.value) (noNul : nul ∉ p.value)
    (below : PartStack base obj ps (r.unset mem)) : PartStack base obj (p :: ps) mem

section Stack

variable {obj obj' : O → Option (StringPart O)} {ps ps' : List (Part O)} {p : Part O} {r : StringPart O} {mem mem' : Memory}
  {q : Place} {base l : List Char}

theorem Outlives.mono (h : Outlives obj ps q) (hsub : ps ⊆ ps') (hobj : ∀ p ∈ ps, obj' p.obj = obj p.obj) :
    Outlives obj' ps' q := by
  rcases h with rfl | ⟨p, hp, b, hb, rfl⟩
  · exact .inl rfl
  · exact .inr ⟨p, hsub hp, b, by rw [owned, hobj p hp]; exact hb, rfl⟩

/-- A part still fits in a memory with more marks. -/
theorem Fits.mono (h : Fits obj ps p r mem) (hsub : ps ⊆ ps') (hobj : ∀ p ∈ ps, obj' p.obj = obj p.obj)
    (hmem : ∀ q l, Outlives obj ps q → mem q = some l → ∃ l', mem' q = some l' ∧ Marked nul l l') :
    Fits obj' ps' p r mem' := by
  cases h with
  | placed ptr lives mem mark value owner cppstr ccstr small =>
    obtain ⟨l', hl', hmarked⟩ := hmem _ _ lives mem
    refine .placed ptr (lives.mono hsub hobj) hl' (hmarked.getElem?_mark mark)
      (value.trans ((hmarked.take _).drop _)) owner (fun htype hindex => cppstr htype ?_) ccstr small
    rw [hindex, hmarked.length_eq]
  | @empty p' r' ptr live object saved mine index owner type value =>
    exact .empty ptr (hsub live) ((hobj p' live).trans object) saved mine index owner type value

/-- Before a part was built there were fewer marks. -/
theorem Fits.marked_unset (h : Fits obj ps p r mem) (hl : (r.unset mem) q = some l) :
    ∃ l', mem q = some l' ∧ Marked nul l l' := by
  cases h with
  | empty ptr =>
    rw [StringPart.unset, ptr] at hl
    exact ⟨l, hl, .refl l⟩
  | @placed q' l' ptr lives hmem mark =>
    rw [StringPart.unset, ptr] at hl
    by_cases hq : q = q'
    · subst hq
      simp only [Function.update_self, hmem, Option.map_some, Option.some.injEq] at hl
      subst hl
      exact ⟨l', hmem, .of_set mark _⟩
    · simp only [ne_eq, hq, not_false_eq_true, Function.update_of_ne] at hl
      exact ⟨l, hl, .refl l⟩

theorem unset_congr (h : mem' q = mem q) : (r.unset mem') q = (r.unset mem) q := by
  rw [StringPart.unset, StringPart.unset]
  cases r.ptr with
  | saved => exact h
  | place q' =>
    by_cases hq : q = q'
    · subst hq
      simp only [Function.update_self, h]
    · simp only [ne_eq, hq, not_false_eq_true, Function.update_of_ne, h]

/-- Putting the saved character back undoes what a constructor did. -/
theorem unset_taken (hptr : r.ptr = .place q) (hl : mem q = some l) (hsaved : l[r.index]? = some r.saved) :
    r.unset (Function.update mem q (some (l.set r.index nul))) = mem := by
  obtain ⟨hlt, hsaved⟩ := List.getElem?_eq_some_iff.1 hsaved
  rw [StringPart.unset, hptr]
  simp only [Function.update_self, Option.map_some, List.set_set, Function.update_idem]
  rw [← hsaved, List.set_getElem_self hlt, ← hl, Function.update_eq_self]

theorem segment_taken (hptr : r.ptr = .place q) :
    segment (Function.update mem q (some (l.set r.index nul))) r = (l.take r.index).drop r.offset := by
  rw [segment, hptr]
  simp only [Function.update_self, Option.getD_some]
  rw [List.take_set_of_le le_rfl]

/-- The parts depend on no more than their places. -/
theorem PartStack.congr (h : PartStack base obj ps mem) (hobj : ∀ p ∈ ps, obj' p.obj = obj p.obj)
    (hmem : ∀ q, Outlives obj ps q → mem' q = mem q) : PartStack base obj' ps mem' := by
  induction h generalizing mem' with
  | nil h => exact .nil ((hmem _ (.inl rfl)).trans h)
  | @cons mem p ps r hr fits value noNul below ih =>
    have hfits : Fits obj' (p :: ps) p r mem' :=
      fits.mono (List.Subset.refl _) hobj fun q l hq hl => ⟨l, (hmem q hq).trans hl, .refl l⟩
    refine .cons ((hobj p List.mem_cons_self).trans hr) hfits ?_ noNul (ih (fun p' hp' => ?_) fun q hq => ?_)
    · rw [← value, segment, segment]
      cases fits with
      | placed ptr lives => simp only [ptr, hmem _ lives]
      | empty ptr => simp only [ptr]
    · exact hobj p' (List.mem_cons_of_mem p hp')
    · exact unset_congr (hmem q (hq.mono (List.subset_cons_self p ps) fun _ _ => rfl))

/-- The string, with the marks of the parts. -/
theorem PartStack.base_mem (h : PartStack base obj ps mem) : ∃ l, mem .base = some l ∧ Marked nul (base ++ [nul]) l := by
  induction h with
  | nil h => exact ⟨_, h, .refl _⟩
  | cons hr fits value noNul below ih =>
    obtain ⟨l, hl, hmarked⟩ := ih
    obtain ⟨l', hl', hmarked'⟩ := fits.marked_unset hl
    exact ⟨l', hl', hmarked.trans hmarked'⟩

/-- Every live part fits, with the marks of those that were built after it. -/
theorem PartStack.fits (h : PartStack base obj ps mem) (hp : p ∈ ps) :
    ∃ r, obj p.obj = some r ∧ nul ∉ p.value ∧ Fits obj ps p r mem := by
  induction h with
  | nil => cases hp
  | @cons mem top ps r hr fits value noNul below ih =>
    rcases List.mem_cons.1 hp with rfl | hp
    · exact ⟨r, hr, noNul, fits⟩
    · obtain ⟨r', hr', hnul, hfits⟩ := ih hp
      exact ⟨r', hr', hnul, hfits.mono (List.subset_cons_self top ps) (fun _ _ => rfl) fun _ _ _ => fits.marked_unset⟩

end Stack

/-! ## Sessions -/

/-- What `c_str` and `length` return. -/
def Strings.reading (s : Strings O) (o : O) : Option (List Char × ℕ) := do
  let r ← s.obj o
  let v ← s.cStr o
  return (v, r.length)

/-- An object that is no part of the string, and what is read of it. -/
inductive IsCopy (s : Strings O) (o : O) (w : List Char × ℕ) : Prop
  | empty (object : s.obj o = some (.empty o)) (value : w = ([], 0))
  | filled {b : ℕ} {l : List Char} (object : s.obj o = some (.filled b w.2)) (mem : s.mem (.heap b) = some l)
    (index : w.2 < l.length) (value : upTo nul l = some w.1) (le : w.1.length ≤ w.2)

/-- The objects, the live parts with the innermost first, and what is to be read of the other objects. -/
structure Session (O : Type) where
  strings : Strings O
  parts : List (Part O)
  copies : O → Option (List Char × ℕ)

/-- What holds of every session. -/
structure Session.Inv (base : List Char) (s : Session O) : Prop where
  stack : PartStack base s.strings.obj s.parts s.strings.mem
  distinct : (s.parts.map Part.obj).Nodup
  copied : ∀ {o w}, s.copies o = some w → IsCopy s.strings o w
  apart : ∀ p ∈ s.parts, s.copies p.obj = none
  known : ∀ {o}, s.strings.obj o ≠ none → s.copies o ≠ none ∨ ∃ p ∈ s.parts, p.obj = o
  blocks : Blocks (owned s.strings.obj) s.strings.next s.strings.deleted
  /-- A part of a constant string is not where the string is, or it changes nothing. -/
  const : ∀ p ∈ s.parts, p.ofConst = true → ∀ r, s.strings.obj p.obj = some r → r.type = .CCSTR ∨ r.ptr ≠ .place .base

/-- Nothing changes but the object `o` and a block that nobody else owns. -/
structure Beside (s t : Strings O) (o : O) : Prop where
  obj : ∀ p, p ≠ o → t.obj p = s.obj p
  mem : ∀ q, (∀ b, q = .heap b → ∃ p, p ≠ o ∧ owned s.obj p = some b) → t.mem q = s.mem q

section Objects

variable {s t : Strings O} {obj : O → Option (StringPart O)} {o p : O} {r : StringPart O} {b : ℕ} {mem : Memory} {q : Place}
  {w : List Char × ℕ} {l v : List Char}

theorem Beside.base (h : Beside s t o) : t.mem .base = s.mem .base := h.mem .base nofun

theorem owned_eq (hr : obj o = some r) : owned obj o = r.block := by rw [owned, hr, Option.bind_some]

theorem owned_eq_none (ho : obj o = none) : owned obj o = none := by rw [owned, ho, Option.bind_none]

theorem block_eq_some (h : r.block = some b) : r.ptr = .place (.heap b) := by
  rw [StringPart.block] at h
  split at h
  · rename_i hptr
    rw [hptr, Option.some.inj h]
  · cases h

theorem block_of_not_owner (h : r.owner = false) : r.block = none := by simp [StringPart.block, h]

theorem unset_of_ne (h : r.ptr ≠ .place q) : r.unset mem q = mem q := by
  rw [StringPart.unset]
  cases hptr : r.ptr with
  | saved => rfl
  | place q' =>
    refine Function.update_of_ne ?_ _ _
    rintro rfl
    exact h hptr

theorem release_of_ne (h : r.ptr ≠ .place q) : r.release mem q = mem q := by
  rw [StringPart.release]
  cases hblock : r.block with
  | none => exact unset_of_ne h
  | some b =>
    refine (Function.update_of_ne ?_ _ _).trans (unset_of_ne h)
    rintro rfl
    exact h (block_eq_some hblock)

theorem IsCopy.live (h : IsCopy s o w) : s.obj o ≠ none := by
  cases h with
  | empty object => exact fun hnone => nomatch object.symm.trans hnone
  | filled object => exact fun hnone => nomatch object.symm.trans hnone

theorem IsCopy.reading (h : IsCopy s o w) : s.reading o = some w := by
  cases h with
  | empty object value =>
    have hcString : s.cString (.saved o) 0 = some [] := by
      rw [Strings.cString, Strings.chars, object]
      exact upTo_append (z := nul) List.not_mem_nil []
    rw [Strings.reading, object, Strings.cStr, object, value]
    simp [StringPart.empty, hcString, StringPart.length]
  | filled object mem index value le =>
    rw [Strings.reading, object, Strings.cStr, object]
    simp [StringPart.filled, StringPart.length, Strings.cString, Strings.chars, mem, value]

theorem IsCopy.beside (h : IsCopy s p w) (hbeside : Beside s t o) (hp : p ≠ o) : IsCopy t p w := by
  cases h with
  | empty object value => exact .empty ((hbeside.obj p hp).trans object) value
  | filled object mem index value le =>
    have hmem := hbeside.mem (.heap _) fun b hb => ⟨p, hp, by
      rw [owned_eq object, ← (Place.heap.inj hb)]
      rfl⟩
    exact .filled ((hbeside.obj p hp).trans object) (hmem.trans mem) index value le

theorem IsCopy.clearable (h : IsCopy s o w) (hr : s.obj o = some r) : s.Clearable r := by
  cases h with
  | empty object value =>
    obtain rfl := Option.some.inj (hr.symm.trans object)
    exact .saved rfl object rfl rfl rfl rfl
  | filled object mem index value le =>
    obtain rfl := Option.some.inj (hr.symm.trans object)
    exact .placed rfl mem index (fun _ => ⟨rfl, _, rfl⟩) nofun

theorem Fits.clearable {ps : List (Part O)} {part : Part O} (h : Fits s.obj ps part r s.mem) : s.Clearable r := by
  cases h with
  | placed ptr lives mem mark value owner cppstr ccstr small =>
    refine .placed ptr mem (List.getElem?_eq_some_iff.1 mark).1 owner ?_
    rintro (htype | ⟨htype, hindex⟩)
    · rw [mark, (ccstr htype).1]
    · rw [mark, cppstr htype hindex]
  | empty ptr live object saved mine index owner type value =>
    exact .saved ptr object (saved.trans mine.symm) index owner type

end Objects

section Inv

variable {s : Session O} {t : Strings O} {base l : List Char} {o rhs : O} {p : Part O} {ps : List (Part O)} {r : StringPart O}
  {q : Place} {b : ℕ}

namespace Session.Inv

theorem live_part (h : s.Inv base) (hp : p ∈ s.parts) : s.strings.obj p.obj ≠ none := by
  obtain ⟨r, hr, -, -⟩ := h.stack.fits hp
  simp [hr]

theorem live_copy (h : s.Inv base) (ho : s.copies o ≠ none) : s.strings.obj o ≠ none := by
  obtain ⟨w, hw⟩ := Option.ne_none_iff_exists'.1 ho
  exact (h.copied hw).live

/-- The places of the parts have owners other than an object that is no part. -/
theorem owner_of_outlives (h : ∀ p ∈ s.parts, p.obj ≠ o) (hq : Outlives s.strings.obj s.parts q) :
    ∀ b, q = .heap b → ∃ p, p ≠ o ∧ owned s.strings.obj p = some b := by
  rintro b rfl
  obtain hbase | ⟨p, hp, b', hb', hq⟩ := hq
  · cases hbase
  · exact ⟨p.obj, h p hp, by rw [Place.heap.inj hq, hb']⟩

/-- The block of a copy is not where a part is. -/
theorem ne_block_of_copy (h : s.Inv base) (ho : s.copies o ≠ none) (hb : owned s.strings.obj o = some b)
    (hq : Outlives s.strings.obj s.parts q) : q ≠ .heap b := by
  rintro rfl
  obtain hbase | ⟨p, hp, b', hb', hq⟩ := hq
  · cases hbase
  · obtain rfl := Place.heap.inj hq
    exact ho (h.blocks.unique hb hb' ▸ h.apart p hp)

theorem ne_part_of_copy (h : s.Inv base) (ho : s.copies o ≠ none) : ∀ p ∈ s.parts, p.obj ≠ o := by
  rintro p hp rfl
  exact ho (h.apart p hp)

theorem ne_part_of_fresh (h : s.Inv base) (ho : s.strings.obj o = none) : ∀ p ∈ s.parts, p.obj ≠ o := by
  rintro p hp rfl
  exact h.live_part hp ho

/-- The string ends with a NUL. -/
theorem base_ends (h : s.Inv base) :
    ∃ l, s.strings.mem .base = some l ∧ l.length = base.length + 1 ∧ l[base.length]? = some nul ∧
      Marked nul base l.dropLast := by
  obtain ⟨l, hl, hmarked⟩ := h.stack.base_mem
  have hlen : l.length = base.length + 1 := by rw [hmarked.length_eq, List.length_append, List.length_singleton]
  refine ⟨l, hl, hlen, hmarked.getElem?_mark (by simp), ?_⟩
  have htake := hmarked.take base.length
  rwa [List.take_left, show base.length = l.length - 1 by omega, ← List.dropLast_eq_take] at htake

/-! ### What is read -/

/-- Every live object can be read. -/
theorem readable (h : s.Inv base) (ho : s.strings.obj o ≠ none) :
    ∃ r v, s.strings.obj o = some r ∧ s.strings.cStr o = some v ∧ v.length ≤ r.length := by
  rcases h.known ho with hcopy | ⟨p, hp, rfl⟩
  · obtain ⟨w, hw⟩ := Option.ne_none_iff_exists'.1 hcopy
    have hreading := (h.copied hw).reading
    obtain ⟨r, hr⟩ := Option.ne_none_iff_exists'.1 ho
    obtain ⟨v, hv⟩ : ∃ v, s.strings.cStr o = some v := by
      refine Option.ne_none_iff_exists'.1 fun hnone => ?_
      simp [Strings.reading, hr, hnone] at hreading
    refine ⟨r, v, hr, hv, ?_⟩
    simp only [Strings.reading, hr, hv, Option.bind_eq_bind, Option.bind_some, Option.pure_def,
      Option.some.injEq] at hreading
    have hlen : w.1.length ≤ w.2 := by
      cases h.copied hw with
      | empty object value => simp [value]
      | filled object mem index value le => exact le
    rwa [← hreading] at hlen
  · obtain ⟨r, hr, hnul, hfits⟩ := h.stack.fits hp
    cases hfits with
    | placed ptr lives mem mark value owner cppstr ccstr small =>
      obtain ⟨v, hv, hlen, -⟩ := exists_upTo_drop mark r.offset_le
      refine ⟨r, v, hr, ?_, hlen⟩
      rw [Strings.cStr_eq hr fun htype => (ccstr htype).2, Strings.cString, ptr, Strings.chars, mem,
        Option.bind_some, hv]
    | empty ptr live object saved mine index owner type value =>
      have hoffset : r.offset = 0 := Nat.le_zero.1 (index ▸ r.offset_le)
      refine ⟨r, [], hr, ?_, Nat.zero_le _⟩
      rw [Strings.cStr_eq hr fun htype => hoffset, Strings.cString, ptr, Strings.chars, object, Option.map_some,
        Option.bind_some, saved, hoffset]
      exact upTo_append List.not_mem_nil []

/-- The innermost part is the substring. -/
theorem reading_innermost (h : s.Inv base) (hparts : s.parts = p :: ps) :
    s.strings.reading p.obj = some (p.value, p.value.length) := by
  have hstack := hparts ▸ h.stack
  cases hstack with
  | @cons _ _ _ r hr fits value noNul below =>
    cases fits with
    | @placed q l ptr lives mem mark _ owner cppstr ccstr small =>
      have hsegment : (l.take r.index).drop r.offset = p.value := by
        rw [← value, segment, ptr]
        simp only [mem, Option.getD_some]
      have hlength : r.length = p.value.length := by
        have hlt := (List.getElem?_eq_some_iff.1 mark).1
        rw [← hsegment, List.length_drop, List.length_take, Nat.min_eq_left hlt.le]
        rfl
      have hcStr : s.strings.cStr p.obj = some p.value := by
        rw [Strings.cStr_eq hr fun htype => (ccstr htype).2, Strings.cString, ptr, Strings.chars, mem,
          Option.bind_some]
        rw [← hsegment] at noNul ⊢
        exact upTo_drop mark r.offset_le noNul
      simp [Strings.reading, hr, hcStr, hlength]
    | empty ptr live object saved mine index owner type hvalue =>
      obtain ⟨r', v, hr', hv, hlen⟩ := h.readable (h.live_part (hparts ▸ List.mem_cons_self))
      obtain rfl := Option.some.inj (hr.symm.trans hr')
      have hlength : r.length = 0 := by rw [StringPart.length, index, Nat.zero_sub]
      have hnil : v = [] := List.eq_nil_of_length_eq_zero (Nat.le_zero.1 (hlength ▸ hlen))
      simp [Strings.reading, hr, hv, hnil, hlength, hvalue]

/-- What is read of an object does not depend on the other ones. -/
theorem reading_beside (h : s.Inv base) (ho : ∀ p ∈ s.parts, p.obj ≠ o) (hbeside : Beside s.strings t o)
    (hlive : s.strings.obj rhs ≠ none) (hrhs : rhs ≠ o) : t.reading rhs = s.strings.reading rhs := by
  rcases h.known hlive with hcopy | ⟨p, hp, rfl⟩
  · obtain ⟨w, hw⟩ := Option.ne_none_iff_exists'.1 hcopy
    rw [(h.copied hw).reading, ((h.copied hw).beside hbeside hrhs).reading]
  · obtain ⟨r, hr, -, hfits⟩ := h.stack.fits hp
    have hchars : t.chars r.ptr = s.strings.chars r.ptr := by
      cases hfits with
      | placed ptr lives =>
        simp only [ptr, Strings.chars]
        exact hbeside.mem _ (owner_of_outlives ho lives)
      | @empty p' r' ptr live =>
        simp only [ptr, Strings.chars]
        rw [hbeside.obj p'.obj (ho p' live)]
    have hobj := hbeside.obj p.obj hrhs
    simp only [Strings.reading, Strings.cStr, Strings.cString, hobj, hr, Option.bind_eq_bind, Option.bind_some, hchars]

/-! ### Changes -/

variable [DecidableEq O] {r' : Option (StringPart O)} {w : Option (List Char × ℕ)}

/-- The parts are not where a new object is built. -/
theorem update_part (h : s.Inv base) (ho : s.strings.obj o = none) (r : Option (StringPart O)) :
    ∀ p ∈ s.parts, Function.update s.strings.obj o r p.obj = s.strings.obj p.obj := fun p hp =>
  Function.update_of_ne (h.ne_part_of_fresh ho p hp) _ _

/-- Something happens to an object that is no part. -/
theorem change (h : s.Inv base) (ho : ∀ p ∈ s.parts, p.obj ≠ o) (hbeside : Beside s.strings t o)
    (hr : t.obj o = r') (hw : ∀ x, w = some x → IsCopy t o x) (hnone : r' ≠ none → w ≠ none)
    (hblocks : Blocks (owned t.obj) t.next t.deleted) : Inv base ⟨t, s.parts, Function.update s.copies o w⟩ where
  stack := h.stack.congr (fun p hp => hbeside.obj p.obj (ho p hp)) fun q hq => hbeside.mem q (owner_of_outlives ho hq)
  distinct := h.distinct
  copied := by
    intro p x hx
    dsimp only at hx
    by_cases hp : p = o
    · subst hp
      rw [Function.update_self] at hx
      exact hw x hx
    · rw [Function.update_of_ne hp] at hx
      exact (h.copied hx).beside hbeside hp
  apart := fun p hp => (Function.update_of_ne (ho p hp) _ _).trans (h.apart p hp)
  known := by
    intro p hp
    dsimp only at hp ⊢
    by_cases hpo : p = o
    · subst hpo
      rw [Function.update_self]
      exact .inl (hnone (hr ▸ hp))
    · rw [Function.update_of_ne hpo]
      exact h.known (hbeside.obj p hpo ▸ hp)
  blocks := hblocks
  const := fun p hp hconst r hr => h.const p hp hconst r ((hbeside.obj p.obj (ho p hp)).symm.trans hr)

/-- A part is built. -/
theorem push (h : s.Inv base) (hfresh : s.strings.obj p.obj = none)
    (hobj : t.obj = Function.update s.strings.obj p.obj (some r))
    (hstack : PartStack base t.obj (p :: s.parts) t.mem)
    (hcopies : ∀ o b, s.copies o ≠ none → owned s.strings.obj o = some b → t.mem (.heap b) = s.strings.mem (.heap b))
    (hblocks : Blocks (owned t.obj) t.next t.deleted) (hconst : p.ofConst = true → r.type = .CCSTR ∨ r.ptr ≠ .place .base) :
    Inv base ⟨t, p :: s.parts, s.copies⟩ where
  stack := hstack
  distinct := by
    rw [List.map_cons, List.nodup_cons]
    refine ⟨fun hmem => ?_, h.distinct⟩
    obtain ⟨p', hp', hobj'⟩ := List.mem_map.1 hmem
    exact h.ne_part_of_fresh hfresh p' hp' hobj'
  copied := by
    intro o x hx
    have ho : o ≠ p.obj := by
      rintro rfl
      exact (h.copied hx).live hfresh
    have hcopy : s.copies o ≠ none := by
      rw [hx]
      simp
    have hobjo : t.obj o = s.strings.obj o := by rw [hobj, Function.update_of_ne ho]
    cases h.copied hx with
    | empty object value => exact .empty (hobjo.trans object) value
    | filled object mem index value le =>
      exact .filled (hobjo.trans object) ((hcopies o _ hcopy (owned_eq object)).trans mem) index value le
  apart := by
    refine List.forall_mem_cons.2 ⟨?_, h.apart⟩
    by_contra hcopy
    exact h.live_copy hcopy hfresh
  known := by
    intro o ho
    by_cases hop : o = p.obj
    · exact .inr ⟨p, List.mem_cons_self, hop.symm⟩
    · rw [hobj, Function.update_of_ne hop] at ho
      exact (h.known ho).imp id fun ⟨p', hp', hobj'⟩ => ⟨p', List.mem_cons_of_mem p hp', hobj'⟩
  blocks := hblocks
  const := by
    refine List.forall_mem_cons.2 ⟨fun hp r' hr' => ?_, fun p' hp' hc r' hr' => ?_⟩
    · rw [hobj, Function.update_self] at hr'
      exact Option.some.inj hr' ▸ hconst hp
    · rw [hobj, h.update_part hfresh _ p' hp'] at hr'
      exact h.const p' hp' hc r' hr'

theorem owned_update (obj : O → Option (StringPart O)) (o : O) (r : Option (StringPart O)) :
    owned (Function.update obj o r) = Function.update (owned obj) o (r.bind StringPart.block) := by
  funext p
  by_cases hp : p = o
  · subst hp
    simp [owned]
  · simp [owned, hp]

/-- An object that owns nothing is replaced by another one. -/
theorem blocks_update (h : s.Inv base) (ho : owned s.strings.obj o = none) (hr : r'.bind StringPart.block = none) :
    Blocks (owned (Function.update s.strings.obj o r')) s.strings.next s.strings.deleted := by
  rw [owned_update, hr, ← ho, Function.update_eq_self]
  exact h.blocks

/-- `clear` frees what the object owns. -/
theorem blocks_cleared (h : s.Inv base) (hr : s.strings.obj o = some r) :
    Blocks (owned (s.strings.cleared o r).obj) (s.strings.cleared o r).next (s.strings.cleared o r).deleted := by
  have howned := owned_eq hr
  cases hblock : r.block with
  | none =>
    simp only [Strings.cleared, hblock, Option.toList_none, List.nil_append]
    exact h.blocks_update (howned.trans hblock) rfl
  | some b =>
    simp only [Strings.cleared, hblock, Option.toList_some, List.singleton_append, owned_update]
    exact h.blocks.free (howned.trans hblock)

/-- The innermost part is cleared. -/
theorem pop (h : s.Inv base) (hparts : s.parts = p :: ps) (hr : s.strings.obj p.obj = some r) :
    Inv base ⟨s.strings.cleared p.obj r, ps, Function.update s.copies p.obj (some ([], 0))⟩ := by
  have hmem : p ∈ s.parts := hparts ▸ List.mem_cons_self
  have hsub : ps ⊆ s.parts := hparts ▸ List.subset_cons_self p ps
  have hdistinct := h.distinct
  rw [hparts, List.map_cons, List.nodup_cons] at hdistinct
  have hne : ∀ p' ∈ ps, p'.obj ≠ p.obj := fun p' hp' heq => hdistinct.1 (heq ▸ List.mem_map_of_mem hp')
  have hbelow : PartStack base s.strings.obj ps (r.unset s.strings.mem) := by
    have hstack := hparts ▸ h.stack
    cases hstack with
    | cons object fits value noNul below => exact Option.some.inj (object.symm.trans hr) ▸ below
  have hplace : ∀ q, r.ptr = .place q → Outlives s.strings.obj s.parts q := by
    obtain ⟨r', hr', -, hfits⟩ := h.stack.fits hmem
    obtain rfl := Option.some.inj (hr.symm.trans hr')
    intro q hq
    cases hfits with
    | placed ptr lives => exact CharPointer.place.inj (hq.symm.trans ptr) ▸ lives
    | empty ptr => cases hq.symm.trans ptr
  constructor
  case stack =>
    refine hbelow.congr (fun p' hp' => Function.update_of_ne (hne p' hp') _ _) fun q hq => ?_
    change r.release s.strings.mem q = r.unset s.strings.mem q
    rw [StringPart.release]
    cases hblock : r.block with
    | none => rfl
    | some b =>
      refine Function.update_of_ne ?_ _ _
      rintro rfl
      obtain hbase | ⟨p', hp', b', hb', hq⟩ := hq
      · cases hbase
      · obtain rfl := Place.heap.inj hq
        exact hne p' hp' (h.blocks.unique hb' ((owned_eq hr).trans hblock))
  case distinct => exact hdistinct.2
  case copied =>
    intro o x hx
    change Function.update s.copies p.obj (some ([], 0)) o = some x at hx
    by_cases ho : o = p.obj
    · subst ho
      rw [Function.update_self] at hx
      exact .empty (Function.update_self ..) (Option.some.inj hx).symm
    · rw [Function.update_of_ne ho] at hx
      have hcopy : s.copies o ≠ none := by
        rw [hx]
        simp
      have hobj : (s.strings.cleared p.obj r).obj o = s.strings.obj o := Function.update_of_ne ho _ _
      cases h.copied hx with
      | empty object value => exact .empty (hobj.trans object) value
      | filled object mem index value le =>
        refine .filled (hobj.trans object) ((release_of_ne fun hptr => ?_).trans mem) index value le
        exact h.ne_block_of_copy hcopy (owned_eq object) (hplace _ hptr) rfl
  case apart =>
    intro p' hp'
    change Function.update s.copies p.obj (some ([], 0)) p'.obj = none
    rw [Function.update_of_ne (hne p' hp')]
    exact h.apart p' (hsub hp')
  case known =>
    intro o ho
    change Function.update s.strings.obj p.obj (some (.empty p.obj)) o ≠ none at ho
    change Function.update s.copies p.obj (some ([], 0)) o ≠ none ∨ _
    by_cases hop : o = p.obj
    · subst hop
      rw [Function.update_self]
      exact .inl (Option.some_ne_none _)
    · rw [Function.update_of_ne hop] at ho ⊢
      refine (h.known ho).imp id ?_
      rintro ⟨p', hp', rfl⟩
      rw [hparts, List.mem_cons] at hp'
      exact ⟨p', hp'.resolve_left fun heq => hop (heq ▸ rfl), rfl⟩
  case blocks => exact h.blocks_cleared hr
  case const =>
    intro p' hp' hconst r' hr'
    refine h.const p' (hsub hp') hconst r' ?_
    rw [← hr']
    exact (Function.update_of_ne (hne p' hp') _ _).symm

end Session.Inv

end Inv

end Miosix
