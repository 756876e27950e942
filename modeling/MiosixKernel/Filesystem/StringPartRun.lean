import MiosixKernel.Filesystem.StringPartStack

/-!
# Runs of parts of a string

* `Move`: the calls on the objects;
* `Session.step`, `Session.run`: what they do, and which substrings and copies they make;
* `Session.Legal`: the parts are destroyed in the reverse order of their construction;
* `Session.Meets`: no offset wraps, and no other part has put a NUL in what is taken;
* **`run_stringPart`**: every run.
-/

namespace Miosix

open Lib PathResolution

variable {O : Type} [DecidableEq O]

/-! ## Calls -/

inductive Move (O : Type) where
  /-- `StringPart()` -/
  | default (o : O)
  /-- `StringPart(string& str, size_t idx, size_t off)` -/
  | fromString (o : O) (idx off : ℕ)
  /-- `StringPart(char* s, size_t idx, size_t off)` -/
  | fromCString (o : O) (idx off : ℕ)
  /-- `StringPart(const char* s)` -/
  | fromConst (o : O)
  /-- `StringPart(StringPart& rhs, size_t idx, size_t off)` -/
  | sub (o rhs : O) (idx off : ℕ)
  /-- `StringPart(const StringPart& rhs)` -/
  | copy (o rhs : O)
  /-- `operator=` -/
  | assign (o rhs : O)
  | clear (o : O)
  /-- `~StringPart()` -/
  | destroy (o : O)

def Move.call (junk : ℕ → ℕ → Char) (s : Strings O) : Move O → Option (Strings O)
  | .default o => some (s.setObj o (some (.empty o)))
  | .fromString o idx off => s.fromString o idx off
  | .fromCString o idx off => s.fromCString o idx off
  | .fromConst o => s.fromConst o
  | .sub o rhs idx off => s.sub junk o rhs idx off
  | .copy o rhs => s.copy junk o rhs
  | .assign o rhs => s.operatorAssign junk o rhs
  | .clear o => s.clear o
  | .destroy o => s.destroy o

namespace Session

/-- The C string that starts where the string does. -/
def cStringNow (s : Session O) : List Char := (s.strings.cString (.place .base) 0).getD []

/-- The characters of the `std::string`, with the NULs of the parts. -/
def stringNow (s : Session O) : List Char := ((s.strings.mem .base).getD []).dropLast

/-- The substrings and the copies after a call that leaves `t`. -/
def track (base : List Char) (s : Session O) (t : Strings O) : Move O → Session O
  | .default o => ⟨t, s.parts, Function.update s.copies o (some ([], 0))⟩
  | .fromString o idx off => ⟨t, ⟨o, stringPart base idx off, false⟩ :: s.parts, s.copies⟩
  | .fromCString o idx off => ⟨t, ⟨o, stringPart s.cStringNow idx off, false⟩ :: s.parts, s.copies⟩
  | .fromConst o => ⟨t, ⟨o, s.cStringNow, true⟩ :: s.parts, s.copies⟩
  | .sub o rhs idx off =>
    match s.parts.find? (·.obj = rhs) with
    | some p => ⟨t, ⟨o, stringPart p.value idx off, p.ofConst⟩ :: s.parts, s.copies⟩
    | none => ⟨t, s.parts, s.copies⟩
  | .copy o rhs => ⟨t, s.parts, Function.update s.copies o (s.strings.reading rhs)⟩
  | .assign o rhs => ⟨t, s.parts, if o = rhs then s.copies else Function.update s.copies o (s.strings.reading rhs)⟩
  | .clear o => ⟨t, s.parts.eraseP (·.obj = o), Function.update s.copies o (some ([], 0))⟩
  | .destroy o => ⟨t, s.parts.eraseP (·.obj = o), Function.update s.copies o none⟩

variable (junk : ℕ → ℕ → Char) (base : List Char)

/-- A call, and what is to be read after it. -/
def step (s : Session O) (m : Move O) : Option (Session O) := (m.call junk s.strings).map fun t => s.track base t m

def run (s : Session O) : List (Move O) → Option (Session O)
  | [] => some s
  | m :: ms => (s.step junk base m).bind fun s => s.run ms

/-- Every call of a run is one that `C` allows. -/
def Allows (C : Session O → Move O → Prop) (s : Session O) : List (Move O) → Prop
  | [] => True
  | m :: ms => C s m ∧ ∀ s' ∈ s.step junk base m, Allows C s' ms

/-- The string, without objects. -/
def start : Session O where
  strings := ⟨fun q => if q = .base then some (base ++ [nul]) else none, fun _ => none, 0, []⟩
  parts := []
  copies := fun _ => none

/-- The object is a copy or the innermost part. -/
def IsLast (s : Session O) (o : O) : Prop := s.copies o ≠ none ∨ s.parts.head?.map Part.obj = some o

/-- Objects are built where there is none, parts are made of live parts and copies of live objects, and the parts are
destroyed or cleared in the reverse order of their construction. -/
def Legal (s : Session O) : Move O → Prop
  | .default o | .fromString o _ _ | .fromCString o _ _ | .fromConst o => s.strings.obj o = none
  | .sub o rhs _ _ => s.strings.obj o = none ∧ ∃ p ∈ s.parts, p.obj = rhs
  | .copy o rhs => s.strings.obj o = none ∧ s.strings.obj rhs ≠ none
  | .assign o rhs => s.copies o ≠ none ∧ s.strings.obj rhs ≠ none
  | .clear o | .destroy o => s.IsLast o

/-- No NUL is among the characters that a constructor takes, and the offset of a part of a part does not wrap. A part of a
constant string copies up to the first NUL, so none is among the characters before `idx`, if `idx` is not before the end or
some are taken. -/
def Meets (s : Session O) : Move O → Prop
  | .fromString _ idx off => nul ∉ stringPart s.stringNow idx off
  | .sub _ rhs idx off => ∀ r ∈ s.strings.obj rhs, r.offset + off < sizeRange ∧
      if r.type = .CCSTR then nul ∉ (segment s.strings.mem r).take idx ∨ idx < r.length ∧ idx ≤ off
      else nul ∉ stringPart (segment s.strings.mem r) idx off
  | _ => True

/-- The call is not about an object that is part of the string other than a part of a `const char*`. -/
def KeepsBase (s : Session O) : Move O → Prop
  | .fromString .. | .fromCString .. => False
  | .sub _ o _ _ | .clear o | .destroy o => ∀ p ∈ s.parts, p.obj = o → p.ofConst = true
  | _ => True

/-! ## Parts are built -/

namespace Inv

variable (junk : ℕ → ℕ → Char) {base : List Char} {s : Session O} {o rhs : O} {p : Part O} {r : StringPart O} {q : Place}
  {l v : List Char} {idx off : ℕ}

/-- A constructor puts a NUL in a place that outlives the part. -/
theorem push_placed (h : s.Inv base) (hfresh : s.strings.obj p.obj = none) (hq : Outlives s.strings.obj s.parts q)
    (hl : s.strings.mem q = some l) (hsaved : l[r.index]? = some r.saved) (hptr : r.ptr = .place q)
    (howner : r.owner = false) (hsmall : r.index < npos) (hvalue : (l.take r.index).drop r.offset = p.value) (hnul : nul ∉ p.value)
    (hcppstr : r.type = .CPPSTR → r.index + 1 = l.length → r.saved = nul)
    (hccstr : r.type = .CCSTR → r.saved = nul ∧ r.offset = 0)
    (hconst : p.ofConst = true → r.type = .CCSTR ∨ r.ptr ≠ .place .base) :
    Inv base ⟨s.strings.taken p.obj q l r, p :: s.parts, s.copies⟩ := by
  have hlt := (List.getElem?_eq_some_iff.1 hsaved).1
  have hobj := h.update_part hfresh (some r)
  refine h.push hfresh rfl ?_ (fun o b ho hb => ?_) ?_ hconst
  · have hsegment : segment (Function.update s.strings.mem q (some (l.set r.index nul))) r = _ := segment_taken hptr
    refine .cons (Function.update_self ..) ?_ (hsegment.trans hvalue) hnul ?_
    · refine .placed hptr (hq.mono (List.subset_cons_self _ _) hobj) (Function.update_self ..)
        (List.getElem?_set_self hlt) ?_ (fun hown => absurd (howner.symm.trans hown) Bool.false_ne_true) ?_ hccstr hsmall
      · rw [List.take_set_of_le le_rfl, hvalue]
        exact .refl _
      · rwa [List.length_set]
    · change PartStack base _ s.parts (r.unset (Function.update s.strings.mem q (some (l.set r.index nul))))
      rw [unset_taken hptr hl hsaved]
      exact h.stack.congr hobj fun _ _ => rfl
  · exact Function.update_of_ne (h.ne_block_of_copy ho hb hq).symm _ _
  · exact h.blocks_update (owned_eq_none hfresh) (block_of_not_owner howner)

/-- A constructor puts a NUL in a copy that it makes. -/
theorem push_own (h : s.Inv base) (hfresh : s.strings.obj p.obj = none) (hsaved : l[r.index]? = some r.saved)
    (hptr : r.ptr = .place (.heap s.strings.next)) (howner : r.owner = true) (htype : r.type = .CSTR)
    (hsmall : r.index < npos) (hvalue : (l.take r.index).drop r.offset = p.value) (hnul : nul ∉ p.value) {t : Strings O}
    (ht : t = { s.strings.setMem (.heap s.strings.next) (some l) with next := s.strings.next + 1 }) :
    Inv base ⟨t.taken p.obj (.heap s.strings.next) l r, p :: s.parts, s.copies⟩ := by
  subst ht
  have hlt := (List.getElem?_eq_some_iff.1 hsaved).1
  have hblock : r.block = some s.strings.next := by simp [StringPart.block, howner, hptr]
  have hobj := h.update_part hfresh (some r)
  have hmem : ∀ q, q ≠ .heap s.strings.next → Function.update (Function.update s.strings.mem (.heap s.strings.next) (some l))
      (.heap s.strings.next) (some (l.set r.index nul)) q = s.strings.mem q := fun q hq => by
    rw [Function.update_of_ne hq, Function.update_of_ne hq]
  refine h.push hfresh rfl ?_ (fun o b ho hb => hmem _ ?_) ?_ fun _ => .inr (by simp [hptr])
  · refine .cons (Function.update_self ..) ?_ ((segment_taken hptr).trans hvalue) hnul ?_
    · refine .placed hptr (.inr ⟨p, List.mem_cons_self, _, ?_, rfl⟩) (Function.update_self ..)
        (List.getElem?_set_self hlt) ?_ (fun _ => ⟨htype, _, rfl⟩) (by simp [htype])
        (by simp [htype]) hsmall
      · exact (owned_eq (Function.update_self ..)).trans hblock
      · rw [List.take_set_of_le le_rfl, hvalue]
        exact .refl _
    · refine h.stack.congr hobj fun q hq => ?_
      have hne : q ≠ .heap s.strings.next := by
        rintro rfl
        obtain hbase | ⟨p', -, b, hb, hq⟩ := hq
        · cases hbase
        · exact h.blocks.owned_ne_next _ (Place.heap.inj hq ▸ hb)
      rw [unset_of_ne fun hq' => hne (CharPointer.place.inj (hq'.symm.trans hptr))]
      exact hmem q hne
  · intro hb'
    exact h.blocks.owned_ne_next _ (Place.heap.inj hb' ▸ hb)
  · change Blocks (owned (Function.update s.strings.obj p.obj (some r))) (s.strings.next + 1) s.strings.deleted
    rw [owned_update, Option.bind_some, hblock]
    exact h.blocks.alloc (owned_eq_none hfresh)

/-- A part of an empty part. -/
theorem push_saved (h : s.Inv base) (hfresh : s.strings.obj p.obj = none) {p' : Part O} (hp' : p' ∈ p :: s.parts)
    (hsaved : ∀ r', p' ∈ s.parts → s.strings.obj p'.obj = some r' → r'.saved = nul) (hvalue : p.value = []) :
    Inv base ⟨s.strings.setObj p.obj (some ⟨.saved p'.obj, 0, 0, nul, false, .CSTR, le_rfl⟩), p :: s.parts, s.copies⟩ := by
  have hobj := h.update_part hfresh (some ⟨.saved p'.obj, 0, 0, nul, false, .CSTR, le_rfl⟩)
  refine h.push hfresh rfl (.cons (Function.update_self ..) ?_ hvalue.symm (hvalue ▸ List.not_mem_nil) ?_)
    (fun _ _ _ _ => rfl) (h.blocks_update (owned_eq_none hfresh) rfl) fun _ => .inr (by simp)
  · rcases List.mem_cons.1 hp' with rfl | hlive
    · exact .empty rfl hp' (Function.update_self ..) rfl rfl rfl rfl rfl hvalue
    · obtain ⟨r', hr', -⟩ := h.stack.fits hlive
      exact .empty rfl hp' ((hobj p' hlive).trans hr') (hsaved r' hlive hr') rfl rfl rfl rfl hvalue
  · exact h.stack.congr hobj fun _ _ => rfl

/-! ## Copies -/

theorem addEmpty (h : s.Inv base) (ho : s.strings.obj o = none) :
    Inv base ⟨s.strings.setObj o (some (.empty o)), s.parts, Function.update s.copies o (some ([], 0))⟩ ∧
      Beside s.strings (s.strings.setObj o (some (.empty o))) o := by
  have hbeside : Beside s.strings (s.strings.setObj o (some (.empty o))) o :=
    ⟨fun _ hp => Function.update_of_ne hp _ _, fun _ _ => rfl⟩
  have hobj : (s.strings.setObj o (some (.empty o))).obj o = some (.empty o) := Function.update_self ..
  refine ⟨h.change (h.ne_part_of_fresh ho) hbeside hobj ?_ (by simp)
    (h.blocks_update (owned_eq_none ho) rfl), hbeside⟩
  rintro w hw
  exact .empty hobj (Option.some.inj hw).symm

theorem removeEmpty (h : s.Inv base) (ho : s.strings.obj o = some (.empty o)) (hcopy : s.copies o ≠ none) :
    Inv base ⟨s.strings.setObj o none, s.parts, Function.update s.copies o none⟩ :=
  h.change (h.ne_part_of_copy hcopy) ⟨fun _ hp => Function.update_of_ne hp _ _, fun _ _ => rfl⟩ (Function.update_self ..)
    (by simp) (absurd rfl) (h.blocks_update (owned_eq ho) rfl)

/-- `clear` of a copy. -/
theorem clear_copy (h : s.Inv base) (hcopy : s.copies o ≠ none) :
    ∃ t, s.strings.clear o = some t ∧ t.obj o = some (.empty o) ∧ Beside s.strings t o ∧
      Inv base ⟨t, s.parts, Function.update s.copies o (some ([], 0))⟩ := by
  obtain ⟨w, hw⟩ := Option.ne_none_iff_exists'.1 hcopy
  obtain ⟨r, hr⟩ := Option.ne_none_iff_exists'.1 (h.live_copy hcopy)
  have hobj : (s.strings.cleared o r).obj o = some (.empty o) := Function.update_self ..
  have hbeside : Beside s.strings (s.strings.cleared o r) o := by
    refine ⟨fun _ hp => Function.update_of_ne hp _ _, fun q hq => release_of_ne fun hptr => ?_⟩
    cases h.copied hw with
    | empty object =>
      obtain rfl := Option.some.inj (hr.symm.trans object)
      cases hptr
    | @filled b l object =>
      obtain rfl := Option.some.inj (hr.symm.trans object)
      obtain ⟨p, hp, hb⟩ := hq b (CharPointer.place.inj hptr).symm
      exact hp (h.blocks.unique hb (owned_eq object))
  refine ⟨_, Strings.clear_spec hr ((h.copied hw).clearable hr), hobj, hbeside, ?_⟩
  refine h.change (h.ne_part_of_copy hcopy) hbeside hobj ?_ (by simp) (h.blocks_cleared hr)
  rintro w hw
  exact .empty hobj (Option.some.inj hw).symm

/-- An empty object becomes a copy of another one. -/
theorem fill (h : s.Inv base) (ho : s.strings.obj o = some (.empty o)) (hcopy : s.copies o ≠ none)
    (hrhs : s.strings.obj rhs ≠ none) :
    ∃ t, s.strings.assign junk o rhs = some t ∧ Beside s.strings t o ∧
      Inv base ⟨t, s.parts, Function.update s.copies o (s.strings.reading rhs)⟩ := by
  obtain ⟨r, v, hr, hv, hlen⟩ := h.readable hrhs
  have hreading : s.strings.reading rhs = some (v, r.length) := by simp [Strings.reading, hr, hv]
  have hne := h.ne_part_of_copy hcopy
  rw [hreading]
  by_cases hlength : r.length = 0
  · have hbeside : Beside s.strings s.strings o := ⟨fun _ _ => rfl, fun _ _ => rfl⟩
    refine ⟨_, Strings.assign_empty junk hr hlength o, hbeside, h.change hne hbeside ho ?_ (by simp) h.blocks⟩
    rintro w hw
    obtain rfl : v = [] := List.eq_nil_of_length_eq_zero (Nat.le_zero.1 (hlength ▸ hlen))
    exact .empty ho (by rw [← Option.some.inj hw, hlength])
  · obtain ⟨rest, hrest, hdup⟩ := Strings.duplicate_spec junk hr hv hlen
    have hmem : ∀ q, q ≠ .heap s.strings.next → (s.strings.setMem (.heap s.strings.next) (some (v ++ nul :: rest))).mem q =
        s.strings.mem q := fun q hq => Function.update_of_ne hq _ _
    have hbeside : Beside s.strings (({ s.strings.setMem (.heap s.strings.next) (some (v ++ nul :: rest)) with
        next := s.strings.next + 1 } : Strings O).setObj o (some (.filled s.strings.next r.length))) o := by
      refine ⟨fun _ hp => Function.update_of_ne hp _ _, fun q hq => hmem q ?_⟩
      rintro rfl
      obtain ⟨p, -, hp⟩ := hq _ rfl
      exact h.blocks.owned_ne_next p hp
    refine ⟨_, Strings.assign_copy junk hr hlength hdup ho, hbeside, h.change hne hbeside (Function.update_self ..) ?_
      (by simp) ?_⟩
    · rintro w hw
      obtain rfl := Option.some.inj hw
      exact .filled (Function.update_self ..) (Function.update_self ..) (by rw [hrest]; exact Nat.lt_succ_self _)
        (upTo_append (Strings.noNul_of_cStr hv) rest) hlen
    · change Blocks (owned (Function.update s.strings.obj o _)) (s.strings.next + 1) s.strings.deleted
      rw [owned_update]
      exact h.blocks.alloc (owned_eq ho)

/-! ## Steps -/

theorem drop_min {xs : List Char} {i off : ℕ} (h : xs.length ≤ i) : xs.drop (min off i) = xs.drop off := by
  rcases le_total off i with hoff | hoff
  · rw [Nat.min_eq_left hoff]
  · rw [Nat.min_eq_right hoff, List.drop_eq_nil_of_le h, List.drop_eq_nil_of_le (h.trans hoff)]

theorem step_fromString (h : s.Inv base) (hsize : base.length + 1 < sizeRange) (hfresh : s.strings.obj o = none)
    (hnul : nul ∉ stringPart s.stringNow idx off) :
    ∃ t, s.strings.fromString o idx off = some t ∧
      Inv base ⟨t, ⟨o, stringPart base idx off, false⟩ :: s.parts, s.copies⟩ := by
  obtain ⟨l, hl, hlen, hend, hmarked⟩ := h.base_ends
  have hnpos : npos + 1 = sizeRange := rfl
  have hlast : l.length - 1 = base.length := by omega
  obtain ⟨saved, hsaved, hcall⟩ := Strings.fromString_spec hl (hlast ▸ hend) o idx off
  rw [hlast, cutIndex_eq_min (by omega)] at hsaved hcall
  have hnow : s.stringNow = l.take base.length := by rw [stringNow, hl, Option.getD_some, List.dropLast_eq_take, hlast]
  have hvalue : stringPart s.stringNow idx off = stringPart base idx off := by
    rw [stringNow, hl, Option.getD_some] at hnul ⊢
    exact ((hmarked.take idx).drop off).eq_of_notMem hnul
  refine ⟨_, hcall, h.push_placed (p := ⟨o, _, false⟩) (r := .share _ _ off saved .CPPSTR) hfresh (.inl rfl) hl hsaved
    rfl rfl ?_ ?_ (hvalue ▸ hnul) ?_ (fun h => by cases h) (by simp)⟩
  · change min idx base.length < npos
    omega
  · change (l.take (min idx base.length)).drop (min off (min idx base.length)) = stringPart base idx off
    rw [drop_min (by rw [List.length_take]; omega), ← hvalue, hnow, stringPart, List.take_take]
  · intro _ hindex
    change min idx base.length + 1 = l.length at hindex
    rw [show min idx base.length = base.length by omega] at hsaved
    exact Option.some.inj (hsaved.symm.trans hend)

omit [DecidableEq O] in
/-- The C string that starts where the string does. -/
theorem cString_now (h : s.Inv base) :
    ∃ l, s.strings.mem .base = some l ∧ upTo nul l = some s.cStringNow ∧ l[s.cStringNow.length]? = some nul ∧
      l.take s.cStringNow.length = s.cStringNow ∧ nul ∉ s.cStringNow ∧ s.cStringNow.length ≤ base.length := by
  obtain ⟨l, hl, hlen, hend, -⟩ := h.base_ends
  obtain ⟨v, rest, hsplit, hnul, hv⟩ := exists_upTo (List.mem_of_getElem? hend)
  have hnow : s.cStringNow = v := by
    rw [cStringNow, Strings.cString, Strings.chars, hl, Option.bind_some, List.drop_zero, hv, Option.getD_some]
  rw [hnow]
  refine ⟨l, hl, hv, ?_, ?_, hnul, ?_⟩
  · simp [hsplit]
  · rw [hsplit, List.take_left]
  · have hlength := congrArg List.length hsplit
    simp only [List.length_append, List.length_cons] at hlength
    omega

theorem step_fromCString (h : s.Inv base) (hsize : base.length + 1 < sizeRange) (hfresh : s.strings.obj o = none)
    (idx off : ℕ) :
    ∃ t, s.strings.fromCString o idx off = some t ∧
      Inv base ⟨t, ⟨o, stringPart s.cStringNow idx off, false⟩ :: s.parts, s.copies⟩ := by
  obtain ⟨l, hl, hv, hend, htake, hnul, hle⟩ := h.cString_now
  have hnpos : npos + 1 = sizeRange := rfl
  obtain ⟨saved, hsaved, hcall⟩ := Strings.fromCString_spec hl hv hend o idx off
  rw [cutIndex_eq_min (by omega)] at hsaved hcall
  refine ⟨_, hcall, h.push_placed (p := ⟨o, _, false⟩) (r := .share _ _ off saved .CSTR) hfresh (.inl rfl) hl hsaved
    rfl rfl ?_ ?_ ?_ (fun h => by cases h) (fun h => by cases h) (by simp)⟩
  · change min idx s.cStringNow.length < npos
    omega
  · change (l.take (min idx s.cStringNow.length)).drop (min off (min idx s.cStringNow.length)) = _
    rw [drop_min (by rw [List.length_take]; omega), ← List.take_take, htake, stringPart]
  · exact fun hmem => hnul (List.mem_of_mem_take (List.mem_of_mem_drop hmem))

theorem step_fromConst (h : s.Inv base) (hsize : base.length + 1 < sizeRange) (hfresh : s.strings.obj o = none) :
    ∃ t, s.strings.fromConst o = some t ∧ t.mem .base = s.strings.mem .base ∧
      Inv base ⟨t, ⟨o, s.cStringNow, true⟩ :: s.parts, s.copies⟩ := by
  obtain ⟨l, hl, hv, hend, htake, hnul, hle⟩ := h.cString_now
  have hnpos : npos + 1 = sizeRange := rfl
  refine ⟨_, Strings.fromConst_spec hl hv hend o, ?_, ?_⟩
  · rw [Strings.taken, Strings.setMem_set_self hl hend, Strings.setObj_mem]
  · refine h.push_placed (p := ⟨o, _, true⟩) (r := ⟨_, _, 0, nul, false, .CCSTR, _⟩) hfresh (.inl rfl) hl hend rfl rfl ?_
      htake hnul (by simp) (fun _ => ⟨rfl, rfl⟩) fun _ => .inl rfl
    change s.cStringNow.length < npos
    omega

/-- A part of a part that is not constant. -/
theorem step_sub_placed (h : s.Inv base) (hfresh : s.strings.obj o = none) (hp : p ∈ s.parts)
    (hr : s.strings.obj p.obj = some r) (htype : r.type ≠ .CCSTR) (hoff : r.offset + off < sizeRange)
    (hnul : nul ∉ stringPart (segment s.strings.mem r) idx off) :
    ∃ t, s.strings.sub junk o p.obj idx off = some t ∧ (p.ofConst = true → t.mem .base = s.strings.mem .base) ∧
      Inv base ⟨t, ⟨o, stringPart p.value idx off, p.ofConst⟩ :: s.parts, s.copies⟩ := by
  have hshared := Strings.shared_of_ne junk hr htype o
  obtain ⟨r', hr', -, hfits⟩ := h.stack.fits hp
  obtain rfl := Option.some.inj (hr.symm.trans hr')
  cases hfits with
  | @empty p' r' ptr live object saved mine index owner type value =>
    rw [ptr, type] at hshared
    refine ⟨_, Strings.sub_saved junk hr hshared index, fun _ => rfl, ?_⟩
    refine h.push_saved (p := ⟨o, _, p.ofConst⟩) hfresh (List.mem_cons_of_mem _ live) (fun r'' _ hr'' => ?_) ?_
    · rw [← Option.some.inj (object.symm.trans hr''), saved]
    · change stringPart p.value idx off = []
      rw [value, stringPart, List.take_nil, List.drop_nil]
  | @placed q l ptr lives mem mark value owner cppstr ccstr small =>
    have hlt := (List.getElem?_eq_some_iff.1 mark).1
    have hlength : r.offset + r.length = r.index := Nat.add_sub_cancel' r.offset_le
    rw [ptr] at hshared
    obtain ⟨saved, hsaved, hcall⟩ := Strings.sub_place junk hr hshared mem small hlt off fun _ => mark
    rw [Nat.mod_eq_of_lt hoff] at hcall
    have hsegment : segment s.strings.mem r = (l.take r.index).drop r.offset := by
      rw [segment, ptr]
      simp only [mem, Option.getD_some]
    have hvalue : stringPart (segment s.strings.mem r) idx off = stringPart p.value idx off :=
      ((hsegment ▸ value).take idx |>.drop off).eq_of_notMem hnul
    have htaken : stringPart (segment s.strings.mem r) idx off =
        (l.take (r.offset + min idx r.length)).drop (r.offset + off) := by
      rw [hsegment, stringPart, List.take_drop, List.take_take, List.drop_drop]
      congr 2
      omega
    have hbase : p.ofConst = true → q ≠ .base := by
      rintro hconst rfl
      exact (h.const p hp hconst r hr).elim htype fun hne => hne ptr
    refine ⟨_, hcall, fun hconst => ?_, ?_⟩
    · exact Function.update_of_ne (hbase hconst).symm _ _
    · refine h.push_placed (p := ⟨o, _, p.ofConst⟩) (r := ⟨.place q, _, _, saved, false, r.type, _⟩) hfresh lives mem hsaved
        rfl rfl ?_ ?_ (hvalue ▸ hnul) ?_ (fun hccstr => absurd hccstr htype) fun hconst => .inr fun hptr =>
          hbase hconst (CharPointer.place.inj hptr)
      · change r.offset + min idx r.length < npos
        omega
      · change (l.take (r.offset + min idx r.length)).drop (min (r.offset + off) (r.offset + min idx r.length)) =
          stringPart p.value idx off
        rw [drop_min (by rw [List.length_take]; omega), ← htaken, hvalue]
      · intro _ hindex
        change r.offset + min idx r.length + 1 = l.length at hindex
        rw [show r.offset + min idx r.length = r.index by omega] at hsaved
        exact Option.some.inj (hsaved.symm.trans mark)

/-- A part of a constant part is made of a copy. -/
theorem step_sub_const (h : s.Inv base) (hfresh : s.strings.obj o = none) (hp : p ∈ s.parts)
    (hr : s.strings.obj p.obj = some r) (htype : r.type = .CCSTR) (hoff : r.offset + off < sizeRange)
    (hnul : nul ∉ (segment s.strings.mem r).take idx ∨ idx < r.length ∧ idx ≤ off) :
    ∃ t, s.strings.sub junk o p.obj idx off = some t ∧ t.mem .base = s.strings.mem .base ∧
      Inv base ⟨t, ⟨o, stringPart p.value idx off, p.ofConst⟩ :: s.parts, s.copies⟩ := by
  obtain ⟨r', hr', hpnul, hfits⟩ := h.stack.fits hp
  obtain rfl := Option.some.inj (hr.symm.trans hr')
  cases hfits with
  | empty ptr live object saved mine index owner type => exact nomatch htype.symm.trans type
  | @placed q l ptr lives mem mark value owner cppstr ccstr small =>
    obtain ⟨-, hoffset⟩ := ccstr htype
    have hlt := (List.getElem?_eq_some_iff.1 mark).1
    have hlength : r.length = r.index := by rw [StringPart.length, hoffset, Nat.sub_zero]
    have hsegment : segment s.strings.mem r = l.take r.index := by
      rw [segment, ptr]
      simp only [mem, Option.getD_some, hoffset, List.drop_zero]
    rw [hoffset, List.drop_zero, ← hsegment] at value
    have hvlength : p.value.length = r.index := by
      rw [← value.length_eq, hsegment, List.length_take, Nat.min_eq_left hlt.le]
    by_cases hzero : r.length = 0
    · have hshared := Strings.shared_empty junk hr htype hzero o
      refine ⟨_, Strings.sub_saved junk hr hshared (hlength ▸ hzero), rfl, ?_⟩
      refine h.push_saved (p := ⟨o, _, p.ofConst⟩) hfresh List.mem_cons_self (fun r' hlive _ => ?_) ?_
      · exact absurd rfl (h.ne_part_of_fresh hfresh _ hlive)
      · change stringPart p.value idx off = []
        rw [List.eq_nil_of_length_eq_zero (by omega : p.value.length = 0), stringPart, List.take_nil, List.drop_nil]
    · obtain ⟨r', v, hr'', hv, hlen⟩ := h.readable (h.live_part hp)
      obtain rfl := Option.some.inj (hr.symm.trans hr'')
      obtain ⟨rest, hrest, hdup⟩ := Strings.duplicate_spec junk hr hv hlen
      have hvup : upTo nul l = some v := by
        rw [← hv, Strings.cStr_eq hr fun _ => hoffset, Strings.cString, ptr, Strings.chars, mem, Option.bind_some, hoffset,
          List.drop_zero]
      have htaken : (segment s.strings.mem r).take idx = l.take (min idx r.index) := by rw [hsegment, List.take_take]
      -- what is copied is the part up to the first NUL
      have hcopied : nul ∉ (segment s.strings.mem r).take idx →
          min idx r.index ≤ v.length ∧ (v ++ nul :: rest).take (min idx r.index) = (segment s.strings.mem r).take idx := by
        intro hnone
        rw [htaken] at hnone ⊢
        obtain ⟨hle, htake⟩ := take_of_upTo hvup hnone
        exact ⟨hle, by rw [List.take_append_of_le_length hle, htake]⟩
      have hend : r.length ≤ idx → (v ++ nul :: rest)[r.index]? = some nul := by
        intro hidx
        obtain ⟨hle, -⟩ := hcopied (hnul.resolve_right fun hlast => absurd hlast.1 (not_lt.2 hidx))
        rw [show r.index = v.length by omega]
        simp
      have hshared := Strings.shared_copy junk hr htype hzero hdup o
      obtain ⟨saved, hsaved, hcall⟩ := Strings.sub_place junk hr hshared (Function.update_self ..) small (by omega) off
        hend
      rw [Nat.mod_eq_of_lt hoff] at hcall
      refine ⟨_, hcall, rfl, ?_⟩
      refine h.push_own (p := ⟨o, _, p.ofConst⟩) (r := ⟨.place _, _, _, saved, true, .CSTR, _⟩) hfresh hsaved rfl rfl rfl
        ?_ ?_ ?_ rfl
      · change r.offset + min idx r.length < npos
        omega
      · change ((v ++ nul :: rest).take (r.offset + min idx r.length)).drop
          (min (r.offset + off) (r.offset + min idx r.length)) = stringPart p.value idx off
        rw [hoffset, Nat.zero_add, Nat.zero_add, hlength]
        rcases hnul with hnone | ⟨hidx, hle⟩
        · rw [drop_min (by rw [List.length_take]; omega), (hcopied hnone).2, (value.take idx).eq_of_notMem hnone, stringPart]
        · have hmin : min idx r.index = idx := by omega
          rw [hmin, Nat.min_eq_right hle, List.drop_take_self, stringPart,
            List.drop_eq_nil_of_le (by rw [List.length_take]; omega)]
      · exact fun hmem => hpnul (List.mem_of_mem_take (List.mem_of_mem_drop hmem))

theorem update_ne_none (copies : O → Option (List Char × ℕ)) (o : O) (w : List Char × ℕ) :
    Function.update copies o (some w) o ≠ none := by
  rw [Function.update_self]
  exact nofun

theorem find_part (h : s.Inv base) (hp : p ∈ s.parts) : s.parts.find? (·.obj = p.obj) = some p := by
  obtain ⟨before, after, hsplit⟩ := List.append_of_mem hp
  have hdistinct := h.distinct
  rw [hsplit, List.map_append, List.map_cons, List.nodup_append] at hdistinct
  rw [hsplit, List.find?_append, List.find?_eq_none.2, Option.none_or, List.find?_cons_of_pos (by simp)]
  intro p' hp'
  simpa using hdistinct.2.2 p'.obj (List.mem_map_of_mem hp') p.obj List.mem_cons_self

theorem step_clear (h : s.Inv base) (hlast : s.IsLast o) :
    ∃ t, s.strings.clear o = some t ∧ t.obj o = some (.empty o) ∧
      ((∀ p ∈ s.parts, p.obj = o → p.ofConst = true) → t.mem .base = s.strings.mem .base) ∧
      Inv base ⟨t, s.parts.eraseP (·.obj = o), Function.update s.copies o (some ([], 0))⟩ := by
  by_cases hcopy : s.copies o = none
  · cases hparts : s.parts with
    | nil => simp [IsLast, hcopy, hparts] at hlast
    | cons p ps =>
      obtain rfl : p.obj = o := by simpa [IsLast, hcopy, hparts] using hlast
      obtain ⟨r, hr, -, hfits⟩ := h.stack.fits (hparts ▸ List.mem_cons_self)
      refine ⟨_, Strings.clear_spec hr hfits.clearable, Function.update_self .., fun hconst => ?_, ?_⟩
      · have hof := hconst p List.mem_cons_self rfl
        rcases h.const p (hparts ▸ List.mem_cons_self) hof r hr with htype | hptr
        · cases hfits with
          | empty ptr live object saved mine index owner type => exact nomatch htype.symm.trans type
          | placed ptr lives mem mark value owner cppstr ccstr small =>
            rw [Strings.cleared_of_not_owner (Strings.not_owner owner (htype ▸ nofun)),
              Strings.unset_kept ptr mem (by rw [mark, (ccstr htype).1])]
        · exact release_of_ne hptr
      · rw [List.eraseP_cons_of_pos (by simp)]
        exact h.pop hparts hr
  · obtain ⟨t, hcall, hobj, hbeside, hinv⟩ := h.clear_copy hcopy
    refine ⟨t, hcall, hobj, fun _ => hbeside.base, ?_⟩
    rw [List.eraseP_of_forall_not]
    · exact hinv
    · intro p hp
      simpa using h.ne_part_of_copy hcopy p hp

theorem step_destroy (h : s.Inv base) (hlast : s.IsLast o) :
    ∃ t, s.strings.destroy o = some t ∧
      ((∀ p ∈ s.parts, p.obj = o → p.ofConst = true) → t.mem .base = s.strings.mem .base) ∧
      Inv base ⟨t, s.parts.eraseP (·.obj = o), Function.update s.copies o none⟩ := by
  obtain ⟨t, hcall, hobj, hbase, hinv⟩ := h.step_clear hlast
  refine ⟨t.setObj o none, ?_, hbase, ?_⟩
  · rw [Strings.destroy, hcall]
    rfl
  · have hremoved := hinv.removeEmpty hobj (update_ne_none _ _ _)
    rwa [Function.update_idem] at hremoved

theorem step_copy (h : s.Inv base) (hfresh : s.strings.obj o = none) (hrhs : s.strings.obj rhs ≠ none) :
    ∃ t, s.strings.copy junk o rhs = some t ∧ t.mem .base = s.strings.mem .base ∧
      Inv base ⟨t, s.parts, Function.update s.copies o (s.strings.reading rhs)⟩ := by
  have hne : rhs ≠ o := by
    rintro rfl
    exact hrhs hfresh
  obtain ⟨hinv, hbeside⟩ := h.addEmpty hfresh
  obtain ⟨t, hcall, hbeside', hinv'⟩ := hinv.fill junk (Function.update_self ..)
    (update_ne_none _ _ _) (hbeside.obj rhs hne ▸ hrhs)
  rw [h.reading_beside (h.ne_part_of_fresh hfresh) hbeside hrhs hne, Function.update_idem] at hinv'
  exact ⟨t, hcall, hbeside'.base.trans hbeside.base, hinv'⟩

theorem step_assign (h : s.Inv base) (hcopy : s.copies o ≠ none) (hrhs : s.strings.obj rhs ≠ none) :
    ∃ t, s.strings.operatorAssign junk o rhs = some t ∧ t.mem .base = s.strings.mem .base ∧
      Inv base ⟨t, s.parts, if o = rhs then s.copies else Function.update s.copies o (s.strings.reading rhs)⟩ := by
  rw [Strings.operatorAssign]
  by_cases hself : o = rhs
  · rw [if_pos hself, if_pos hself]
    exact ⟨_, rfl, rfl, h⟩
  · rw [if_neg hself, if_neg hself]
    have hne : rhs ≠ o := fun heq => hself heq.symm
    obtain ⟨t, hcall, hobj, hbeside, hinv⟩ := h.clear_copy hcopy
    obtain ⟨t', hcall', hbeside', hinv'⟩ := hinv.fill junk hobj (update_ne_none _ _ _)
      (hbeside.obj rhs hne ▸ hrhs)
    rw [h.reading_beside (h.ne_part_of_copy hcopy) hbeside hrhs hne, Function.update_idem] at hinv'
    exact ⟨t', by rw [hcall]; exact hcall', hbeside'.base.trans hbeside.base, hinv'⟩

/-- Every legal call that meets the condition returns, and keeps what holds of a session. -/
theorem step (h : s.Inv base) (hsize : base.length + 1 < sizeRange) {m : Move O} (hlegal : s.Legal m) (hmeets : s.Meets m) :
    ∃ s', s.step junk base m = some s' ∧ s'.Inv base ∧
      (s.KeepsBase m → s'.strings.mem .base = s.strings.mem .base) := by
  cases m with
  | default o =>
    obtain ⟨hinv, hbeside⟩ := h.addEmpty hlegal
    exact ⟨_, rfl, hinv, fun _ => hbeside.base⟩
  | fromString o idx off =>
    obtain ⟨t, hcall, hinv⟩ := h.step_fromString hsize hlegal hmeets
    exact ⟨_, congrArg (Option.map _) hcall, hinv, False.elim⟩
  | fromCString o idx off =>
    obtain ⟨t, hcall, hinv⟩ := h.step_fromCString hsize hlegal idx off
    exact ⟨_, congrArg (Option.map _) hcall, hinv, False.elim⟩
  | fromConst o =>
    obtain ⟨t, hcall, hbase, hinv⟩ := h.step_fromConst hsize hlegal
    exact ⟨_, congrArg (Option.map _) hcall, hinv, fun _ => hbase⟩
  | sub o rhs idx off =>
    obtain ⟨hfresh, p, hp, rfl⟩ := hlegal
    obtain ⟨r, hr⟩ := Option.ne_none_iff_exists'.1 (h.live_part hp)
    have htrack : ∀ t, s.track base t (.sub o p.obj idx off) =
        ⟨t, ⟨o, stringPart p.value idx off, p.ofConst⟩ :: s.parts, s.copies⟩ := fun t => by
      simp only [track, h.find_part hp]
    obtain ⟨hoff, hnul⟩ := hmeets r hr
    by_cases htype : r.type = .CCSTR
    · rw [if_pos htype] at hnul
      obtain ⟨t, hcall, hbase, hinv⟩ := h.step_sub_const junk hfresh hp hr htype hoff hnul
      exact ⟨_, (congrArg (Option.map _) hcall).trans (congrArg some (htrack t)), hinv, fun _ => hbase⟩
    · rw [if_neg htype] at hnul
      obtain ⟨t, hcall, hbase, hinv⟩ := h.step_sub_placed junk hfresh hp hr htype hoff hnul
      exact ⟨_, (congrArg (Option.map _) hcall).trans (congrArg some (htrack t)), hinv,
        fun hkeeps => hbase (hkeeps p hp rfl)⟩
  | copy o rhs =>
    obtain ⟨t, hcall, hbase, hinv⟩ := h.step_copy junk hlegal.1 hlegal.2
    exact ⟨_, congrArg (Option.map _) hcall, hinv, fun _ => hbase⟩
  | assign o rhs =>
    obtain ⟨t, hcall, hbase, hinv⟩ := h.step_assign junk hlegal.1 hlegal.2
    exact ⟨_, congrArg (Option.map _) hcall, hinv, fun _ => hbase⟩
  | clear o =>
    obtain ⟨t, hcall, -, hbase, hinv⟩ := h.step_clear hlegal
    exact ⟨_, congrArg (Option.map _) hcall, hinv, hbase⟩
  | destroy o =>
    obtain ⟨t, hcall, hbase, hinv⟩ := h.step_destroy hlegal
    exact ⟨_, congrArg (Option.map _) hcall, hinv, hbase⟩

end Inv

omit [DecidableEq O] in
theorem inv_start (base : List Char) : (start base : Session O).Inv base where
  stack := .nil rfl
  distinct := List.nodup_nil
  copied := nofun
  apart := nofun
  known := fun h => absurd rfl h
  blocks := Blocks.empty
  const := nofun

end Session

/-! ## Every run -/

/-- A string that fits in memory, with the NUL at its end. -/
structure BaseString extends CString where
  length_lt : chars.length + 1 < sizeRange

/-- What is right in a session on the string `base`. -/
structure SessionRight (junk : ℕ → ℕ → Char) (base : List Char) (s : Session O) : Prop where
  /-- The innermost part is its substring. -/
  innermost : ∀ p ps, s.parts = p :: ps → s.strings.reading p.obj = some (p.value, p.value.length)
  /-- The other objects have the value that they were given. -/
  copies : ∀ o w, s.copies o = some w → s.strings.reading o = some w
  live : ∀ o, s.strings.obj o ≠ none → s.copies o ≠ none ∨ ∃ p ∈ s.parts, p.obj = o
  /-- Without parts, the string is as it was. -/
  restored : s.parts = [] → s.strings.mem .base = some (base ++ [nul])
  /-- Parts of a `const char*` and copies do not change the string. -/
  const : ∀ m s', s.Legal m → s.Meets m → s.KeepsBase m → s.step junk base m = some s' →
    s'.strings.mem .base = s.strings.mem .base
  /-- Without objects, each block that was allocated was freed once. -/
  freed : (∀ o, s.strings.obj o = none) → s.strings.deleted.Perm (List.range s.strings.next)

namespace Session

variable {junk : ℕ → ℕ → Char} {base : List Char} {s : Session O}

theorem Inv.right (h : s.Inv base) (hsize : base.length + 1 < sizeRange) : SessionRight junk base s where
  innermost := fun _ _ hparts => h.reading_innermost hparts
  copies := fun _ _ hw => (h.copied hw).reading
  live := fun _ ho => h.known ho
  restored := by
    intro hparts
    have hstack := hparts ▸ h.stack
    cases hstack with
    | nil hbase => exact hbase
  const := by
    intro m s' hlegal hmeets hkeeps hstep
    obtain ⟨s'', hstep', -, hbase⟩ := h.step junk hsize hlegal hmeets
    obtain rfl := Option.some.inj (hstep.symm.trans hstep')
    exact hbase hkeeps
  freed := fun hnone => h.blocks.freed_perm fun o => owned_eq_none (hnone o)

theorem Inv.run (h : s.Inv base) (hsize : base.length + 1 < sizeRange) {ms : List (Move O)}
    (hms : s.Allows junk base (fun s m => s.Legal m ∧ s.Meets m) ms) :
    ∃ s', s.run junk base ms = some s' ∧ s'.Inv base := by
  induction ms generalizing s with
  | nil => exact ⟨s, rfl, h⟩
  | cons m ms ih =>
    obtain ⟨⟨hlegal, hmeets⟩, hrest⟩ := hms
    obtain ⟨s', hstep, hinv, -⟩ := h.step junk hsize hlegal hmeets
    rw [Session.run, hstep]
    exact ih hinv (hrest s' hstep)

instance (s : Session O) : (m : Move O) → Decidable (s.Legal m)
  | .default o | .fromString o _ _ | .fromCString o _ _ | .fromConst o =>
    inferInstanceAs (Decidable (s.strings.obj o = none))
  | .sub o rhs _ _ => inferInstanceAs (Decidable (s.strings.obj o = none ∧ ∃ p ∈ s.parts, p.obj = rhs))
  | .copy o rhs => inferInstanceAs (Decidable (s.strings.obj o = none ∧ ¬ s.strings.obj rhs = none))
  | .assign o rhs => inferInstanceAs (Decidable (¬ s.copies o = none ∧ ¬ s.strings.obj rhs = none))
  | .clear o | .destroy o => inferInstanceAs (Decidable (¬ s.copies o = none ∨ s.parts.head?.map Part.obj = some o))

instance (s : Session O) : (m : Move O) → Decidable (s.Meets m)
  | .fromString _ idx off => inferInstanceAs (Decidable (nul ∉ stringPart s.stringNow idx off))
  | .sub _ rhs idx off => inferInstanceAs (Decidable (∀ r ∈ s.strings.obj rhs, r.offset + off < sizeRange ∧
      if r.type = .CCSTR then nul ∉ (segment s.strings.mem r).take idx ∨ idx < r.length ∧ idx ≤ off
      else nul ∉ stringPart (segment s.strings.mem r) idx off))
  | .default _ | .fromCString .. | .fromConst _ | .copy .. | .assign .. | .clear _ | .destroy _ =>
    inferInstanceAs (Decidable True)

instance decidableAllows (C : Session O → Move O → Prop) [∀ s m, Decidable (C s m)] (s : Session O) :
    (ms : List (Move O)) → Decidable (s.Allows junk base C ms)
  | [] => inferInstanceAs (Decidable True)
  | m :: ms =>
    have : ∀ s : Session O, Decidable (s.Allows junk base C ms) := fun s => decidableAllows C s ms
    inferInstanceAs (Decidable (C s m ∧ ∀ s' ∈ s.step junk base m, s'.Allows junk base C ms))

end Session

/-- **Parts of a string.** In a run in which no offset wraps and no NUL is taken, every call returns and everything is right
after it. -/
theorem run_stringPart (junk : ℕ → ℕ → Char) (base : BaseString) (ms : List (Move O))
    (h : (Session.start base.chars).Allows junk base.chars (fun s m => s.Legal m ∧ s.Meets m) ms) :
    ∃ s, (Session.start base.chars).run junk base.chars ms = some s ∧ SessionRight junk base.chars s := by
  obtain ⟨s, hrun, hinv⟩ := (Session.inv_start base.chars).run base.length_lt h
  exact ⟨s, hrun, hinv.right base.length_lt⟩

/-- A part `a/` of `/a/b` and a part `a` of it, with copies of both and with a constant part. -/
theorem run_stringPart_path : ∃ s, (Session.start ['/', 'a', '/', 'b']).run (fun _ _ => 'x') ['/', 'a', '/', 'b']
    [.fromString 0 3 1, .copy 1 0, .sub 2 0 1 0, .fromConst 3, .sub 4 3 1 0, .assign 1 4, .destroy 4, .destroy 3, .clear 2,
      .destroy 0, .destroy 1, .destroy 2] = some s ∧ SessionRight (fun _ _ => 'x') ['/', 'a', '/', 'b'] s :=
  run_stringPart (fun _ _ => 'x') ⟨⟨['/', 'a', '/', 'b'], by decide⟩, by decide⟩ _ (by decide)

/-- An offset that wraps: a part of `bc` without its first `npos` characters is `abc`. -/
theorem not_right_wrapped_offset :
    ¬ ∀ (junk : ℕ → ℕ → Char) (base : BaseString) (ms : List (Move ℕ)),
      (Session.start base.chars).Allows junk base.chars Session.Legal ms →
      ∃ s, (Session.start base.chars).run junk base.chars ms = some s ∧ SessionRight junk base.chars s := by
  intro h
  obtain ⟨s, hrun, hright⟩ := h (fun _ _ => nul) ⟨⟨['a', 'b', 'c'], by decide⟩, by decide⟩
    [.fromString 0 npos 1, .sub 1 0 npos npos] (by decide)
  have hparts : ((Session.start ['a', 'b', 'c']).run (fun _ _ => nul) ['a', 'b', 'c']
      [.fromString 0 npos 1, .sub 1 0 npos npos]).map Session.parts = some [⟨1, [], false⟩, ⟨0, ['b', 'c'], false⟩] := by
    decide
  have hreading : ((Session.start ['a', 'b', 'c']).run (fun _ _ => nul) ['a', 'b', 'c']
      [.fromString 0 npos 1, .sub 1 0 npos npos]).bind (·.strings.reading 1) = some (['a', 'b', 'c'], 3) := by decide
  rw [hrun] at hparts hreading
  have hinnermost := hright.innermost _ _ (Option.some.inj hparts)
  exact absurd (hinnermost.symm.trans hreading) (by decide)

end Miosix
