import Mathlib.Data.List.Basic
import Mathlib.Logic.Function.Basic
import Mathlib.Tactic.Ring

/-!
# The line discipline of a terminal

`TerminalDevice::normalize` edits a buffer in place while it goes over the characters that a device has read.

* `Cursor`: the buffer, the pointers into it, and the ranges that were accessed;
* `normalizeChar`, `normalize`: the switch and the loop;
* `Handled.next`: what the code does to the text, without the buffer;
* **`normalize_inv`**: the loop does that, and when its accesses stay in the data.
-/

namespace Miosix

/-- The members of `TerminalDevice` that are kept between reads. -/
structure TerminalDevice where
  echo : Bool
  skipNewline : Bool

/-- The local variables of `normalize`. Pointers are relative to the start of the buffer. -/
structure Cursor where
  echo : Bool
  skipNewline : Bool
  chunkStart : ℤ
  mem : ℤ → UInt8
  buffer : ℤ
  i : ℤ
  stop : ℤ
  newlineFound : Bool
  /-- The ranges that were read or written, as a start and a length. -/
  accessed : List (ℤ × ℤ)
  output : List UInt8

def isErase (c : UInt8) : Bool := c = 0x7f || c = 0x08

namespace Cursor

def access (s : Cursor) (p n : ℤ) : Cursor := { s with accessed := s.accessed ++ [(p, n)] }

/-- `*p = c` -/
def store (s : Cursor) (p : ℤ) (c : UInt8) : Cursor :=
  { s.access p 1 with mem := Function.update s.mem p c }

def memmove (s : Cursor) (dst src n : ℤ) : Cursor :=
  { (s.access src n).access dst n with
    mem := fun x => if dst ≤ x ∧ x < dst + n then s.mem (src + (x - dst)) else s.mem x }

/-- Write what the pointers delimit, and a separator. -/
def echoBack (s : Cursor) (chunkEnd : ℤ) (sep : List UInt8) : Cursor :=
  if s.echo = false then s
  else
    let s' := if chunkEnd > s.chunkStart then s.access s.chunkStart (chunkEnd - s.chunkStart) else s
    let chunk := (List.range (chunkEnd - s.chunkStart).toNat).map fun k => s.mem (s.chunkStart + k)
    { s' with chunkStart := chunkEnd + 1, output := s.output ++ chunk ++ sep }

def returnNewline : List UInt8 := [0x0d, 0x0a]

/-- Move the cursor back, write a space, and move it back again. -/
def eraseEcho : List UInt8 := [0x1b, 0x5b, 0x31, 0x44, 0x20, 0x1b, 0x5b, 0x31, 0x44]

def carriageReturn (s : Cursor) : Cursor :=
  let s := (s.store s.buffer 0x0a).echoBack s.buffer returnNewline
  { s with skipNewline := true, newlineFound := true }

/-- Discard the `\n` because it comes right after a `\r`. -/
def dropNewline (s : Cursor) : Cursor :=
  let s := { s with skipNewline := false }
  let s := s.memmove s.buffer (s.buffer + 1) (s.stop - s.i - 1)
  { s with stop := s.stop - 1, i := s.i - 1, buffer := s.buffer - 1 }

def newline (s : Cursor) : Cursor :=
  let s := s.echoBack s.buffer returnNewline
  { s with newlineFound := true }

/-- The cursor may become -1, until it advances. -/
def erase (s : Cursor) : Cursor :=
  let s := s.echoBack s.buffer eraseEcho
  let backward : ℤ := if s.i = 0 then 1 else 2
  let s := s.memmove (s.buffer - (backward - 1)) (s.buffer + 1) (s.stop - s.i)
  { s with
    stop := s.stop - backward
    i := s.i - backward
    buffer := s.buffer - backward
    chunkStart := s.buffer - backward + 1 }

/-- The switch. -/
def handleChar (s : Cursor) (c : UInt8) : Cursor :=
  if c = 0x0d then s.carriageReturn
  else if c = 0x0a then if s.skipNewline then s.dropNewline else s.newline
  else if isErase c then s.erase
  else { s with skipNewline := false }

/-- The current character is read and handled. -/
def normalizeChar (s : Cursor) : Cursor := (s.access s.buffer 1).handleChar (s.mem s.buffer)

def advance (s : Cursor) : Cursor := { s with i := s.i + 1, buffer := s.buffer + 1 }

/-- The loop, for so many characters. -/
def normalizeLoop : ℕ → Cursor → Cursor
  | 0, s => s
  | n + 1, s =>
    if s.i < s.stop then normalizeLoop n s.normalizeChar.advance else s

end Cursor

/-- `TerminalDevice::normalize`. The result is in `stop` and `newlineFound`. -/
def TerminalDevice.normalize (t : TerminalDevice) (mem : ℤ → UInt8) (start stop : ℤ) : Cursor :=
  let s := Cursor.normalizeLoop (stop - start).toNat
    ⟨t.echo, t.skipNewline, start, mem, start, start, stop, false, [], []⟩
  s.echoBack s.buffer []

/-! ## The text -/

/-- The text, the flags of the code, and if the data have been shortened in this call. -/
structure Handled where
  text : List UInt8
  skipNewline : Bool
  newlineFound : Bool
  shortened : Bool

/-- One character. -/
def Handled.next (h : Handled) (c : UInt8) : Handled :=
  if c = 0x0d then { h with text := h.text ++ [0x0a], skipNewline := true, newlineFound := true }
  else if c = 0x0a then
    if h.skipNewline then { h with skipNewline := false, shortened := true }
    else { h with text := h.text ++ [0x0a], newlineFound := true }
  else if isErase c then { h with text := h.text.dropLast, shortened := true }
  else { h with text := h.text ++ [c], skipNewline := false }

/-- The characters that the code can handle within the data. -/
def Handled.Allows (h : Handled) (c : UInt8) : Prop := isErase c = true → h.shortened = true

/-- Each one is allowed where it comes. -/
def Handled.AllowsAll (h : Handled) : List UInt8 → Prop
  | [] => True
  | c :: cs => h.Allows c ∧ (h.next c).AllowsAll cs

/-! ## Characters in memory -/

/-- The memory holds some characters. -/
def HoldsAt (mem : ℤ → UInt8) (p : ℤ) : List UInt8 → Prop
  | [] => True
  | c :: cs => mem p = c ∧ HoldsAt mem (p + 1) cs

variable {mem mem' : ℤ → UInt8} {p q n : ℤ} {a b c rest : List UInt8} {x : UInt8}

theorem holdsAt_append : HoldsAt mem p (a ++ b) ↔ HoldsAt mem p a ∧ HoldsAt mem (p + a.length) b := by
  induction a generalizing p with
  | nil => simp [HoldsAt]
  | cons c a ih =>
    rw [List.cons_append, HoldsAt, HoldsAt, ih, and_assoc, List.length_cons]
    push_cast
    rw [add_assoc, add_comm (1 : ℤ)]

/-- The same characters, somewhere else. -/
theorem HoldsAt.moved (h : HoldsAt mem p a) (hmove : ∀ k : ℤ, 0 ≤ k → k < a.length → mem' (q + k) = mem (p + k)) :
    HoldsAt mem' q a := by
  induction a generalizing p q with
  | nil => trivial
  | cons c a ih =>
    rw [List.length_cons] at hmove
    push_cast at hmove
    have h0 := hmove 0 le_rfl (by omega)
    rw [add_zero, add_zero] at h0
    refine ⟨h0.trans h.1, ih h.2 fun k hk hlt => ?_⟩
    have hk1 := hmove (1 + k) (by omega) (by omega)
    rwa [← add_assoc, ← add_assoc] at hk1

theorem HoldsAt.congr (h : HoldsAt mem p a) (heq : ∀ y, p ≤ y → y < p + a.length → mem' y = mem y) :
    HoldsAt mem' p a :=
  h.moved fun k hk hlt => heq _ (by omega) (by omega)

/-- Characters are deleted by moving those after them. -/
theorem HoldsAt.memmove {s : Cursor} (h : HoldsAt s.mem 0 (a ++ (c ++ b))) (hn : b.length ≤ n)
    (hp : p = a.length) (hq : q = a.length + c.length) : HoldsAt (s.memmove p q n).mem 0 (a ++ b) := by
  rw [holdsAt_append, holdsAt_append] at h
  obtain ⟨ha, -, hb⟩ := h
  rw [holdsAt_append, zero_add]
  rw [zero_add] at hb
  constructor
  · refine ha.congr fun y hy hlt => ?_
    show (if _ then _ else _) = _
    rw [if_neg (by omega)]
  · refine hb.moved fun k hk hlt => ?_
    show (if _ then _ else _) = _
    rw [if_pos (by omega)]
    congr 1
    omega

theorem HoldsAt.update (h : HoldsAt mem 0 (a ++ x :: b)) (hp : p = a.length) (y : UInt8) :
    HoldsAt (Function.update mem p y) 0 (a ++ y :: b) := by
  rw [holdsAt_append, zero_add] at h ⊢
  obtain ⟨ha, -, hb⟩ := h
  refine ⟨ha.congr fun z hz hlt => ?_, ?_, hb.congr fun z hz hlt => ?_⟩
  · rw [Function.update_of_ne (by omega)]
  · rw [hp, Function.update_self]
  · rw [Function.update_of_ne (by omega)]

/-! ## One character -/

/-- The text is at the start of the buffer, and the characters to come are after it. There is less data than at
first if some were removed. -/
structure Cursor.Inv (s : Cursor) (h : Handled) (rest : List UInt8) (size : ℤ) : Prop where
  buffer : s.buffer = s.i
  i : s.i = h.text.length
  stop : s.stop = h.text.length + rest.length
  content : HoldsAt s.mem 0 (h.text ++ rest)
  skipNewline : s.skipNewline = h.skipNewline
  newlineFound : s.newlineFound = h.newlineFound
  le : s.stop ≤ size
  shortened : h.shortened = true ↔ s.stop < size
  chunkStart : 0 ≤ s.chunkStart

/-- The accesses are in the data that were received. -/
def Cursor.Inside (s : Cursor) (size : ℤ) : Prop := ∀ r ∈ s.accessed, 0 < r.2 → 0 ≤ r.1 ∧ r.1 + r.2 ≤ size

namespace Cursor

variable {s : Cursor} {size : ℤ}

theorem inside_access : (s.access p n).Inside size ↔ s.Inside size ∧ (0 < n → 0 ≤ p ∧ p + n ≤ size) := by
  simp only [Inside, access, List.mem_append, List.mem_singleton]
  constructor
  · exact fun h => ⟨fun r hr => h r (.inl hr), fun hn => h (p, n) (.inr rfl) hn⟩
  · rintro ⟨h1, h2⟩ r (hr | rfl)
    · exact h1 r hr
    · exact h2

theorem inside_store (c : UInt8) : (s.store p c).Inside size ↔ s.Inside size ∧ (0 ≤ p ∧ p + 1 ≤ size) := by
  have h : (s.store p c).Inside size ↔ (s.access p 1).Inside size := Iff.rfl
  rw [h, inside_access, imp_iff_right (by decide)]

theorem inside_memmove : (s.memmove p q n).Inside size ↔
    s.Inside size ∧ (0 < n → (0 ≤ q ∧ q + n ≤ size) ∧ 0 ≤ p ∧ p + n ≤ size) := by
  have h : (s.memmove p q n).Inside size ↔ ((s.access q n).access p n).Inside size := Iff.rfl
  rw [h, inside_access, inside_access, and_assoc, ← imp_and]

/-- Echoing stays in the data. -/
theorem inside_echoBack (hstart : 0 ≤ s.chunkStart) (hp : p ≤ size) (sep : List UInt8) :
    (s.echoBack p sep).Inside size ↔ s.Inside size := by
  rw [echoBack]
  by_cases hecho : s.echo = false
  · rw [if_pos hecho]
  rw [if_neg hecho]
  by_cases hlt : p > s.chunkStart
  · simp only [if_pos hlt]
    have h : (s.access s.chunkStart (p - s.chunkStart)).Inside size ↔ _ := inside_access
    rw [and_iff_left fun _ => ⟨hstart, by omega⟩] at h
    exact h
  · simp only [if_neg hlt]
    rfl

section Echo

variable (s : Cursor) (p : ℤ) (sep : List UInt8)

@[simp] theorem echoBack_mem : (s.echoBack p sep).mem = s.mem := by
  unfold echoBack
  split_ifs <;> rfl

@[simp] theorem echoBack_buffer : (s.echoBack p sep).buffer = s.buffer := by
  unfold echoBack
  split_ifs <;> rfl

@[simp] theorem echoBack_i : (s.echoBack p sep).i = s.i := by
  unfold echoBack
  split_ifs <;> rfl

@[simp] theorem echoBack_stop : (s.echoBack p sep).stop = s.stop := by
  unfold echoBack
  split_ifs <;> rfl

@[simp] theorem echoBack_skipNewline : (s.echoBack p sep).skipNewline = s.skipNewline := by
  unfold echoBack
  split_ifs <;> rfl

@[simp] theorem echoBack_newlineFound : (s.echoBack p sep).newlineFound = s.newlineFound := by
  unfold echoBack
  split_ifs <;> rfl

theorem echoBack_chunkStart (h : 0 ≤ s.chunkStart) (hp : 0 ≤ p) : 0 ≤ (s.echoBack p sep).chunkStart := by
  unfold echoBack
  split_ifs
  · exact h
  · exact Int.add_nonneg hp (by decide)
  · exact Int.add_nonneg hp (by decide)

end Echo

section Char

variable {h : Handled}

theorem Inv.current (hs : s.Inv h (x :: rest) size) : s.mem s.buffer = x := by
  have hcontent := (holdsAt_append.1 hs.content).2
  rw [zero_add, ← hs.i, ← hs.buffer] at hcontent
  exact hcontent.1

/-- The range of the current character is in the data. -/
theorem Inv.current_le (hs : s.Inv h (x :: rest) size) : 0 ≤ s.buffer ∧ s.buffer + 1 ≤ s.stop ∧ s.stop ≤ size := by
  have hbuffer := hs.buffer
  have hi := hs.i
  have hstop := hs.stop
  rw [List.length_cons] at hstop
  push_cast at hstop
  exact ⟨by omega, by omega, hs.le⟩

theorem Inv.access (hs : s.Inv h (x :: rest) size) : (s.access s.buffer 1).Inv h (x :: rest) size ∧
    ((s.access s.buffer 1).Inside size ↔ s.Inside size) := by
  obtain ⟨h0, h1, h2⟩ := hs.current_le
  refine ⟨⟨hs.buffer, hs.i, hs.stop, hs.content, hs.skipNewline, hs.newlineFound, hs.le, hs.shortened,
    hs.chunkStart⟩, ?_⟩
  rw [inside_access, and_iff_left fun _ => ⟨h0, h1.trans h2⟩]

/-- The character is kept, or replaced by another one. -/
theorem Inv.append (hs : s.Inv h (x :: rest) size) {s' : Cursor} {h' : Handled} {y : UInt8}
    (hbuffer : s'.buffer = s.buffer) (hi : s'.i = s.i) (hstop : s'.stop = s.stop)
    (hmem : s'.mem = Function.update s.mem s.buffer y) (htext : h'.text = h.text ++ [y])
    (hskip : s'.skipNewline = h'.skipNewline) (hnewline : s'.newlineFound = h'.newlineFound)
    (hshort : h'.shortened = h.shortened) (hstart : 0 ≤ s'.chunkStart) : s'.advance.Inv h' rest size where
  buffer := by
    rw [advance, hbuffer, hi, hs.buffer]
  i := by
    rw [advance, hi, htext, hs.i, List.length_append]
    rfl
  stop := by
    rw [advance, hstop, htext, hs.stop, List.length_append, List.length_cons, List.length_singleton]
    push_cast
    ring
  content := by
    rw [advance, hmem, htext, List.append_assoc, List.singleton_append]
    exact hs.content.update (hs.buffer.trans hs.i) y
  skipNewline := hskip
  newlineFound := hnewline
  le := hstop.trans_le hs.le
  shortened := by
    rw [advance, hshort, hstop, hs.shortened]
  chunkStart := hstart

/-- Some characters up to the current one are removed. -/
theorem Inv.remove (hs : s.Inv h (x :: rest) size) {s' : Cursor} {h' : Handled} {n : ℤ} {removed : List UInt8}
    (htext : h.text ++ [x] = h'.text ++ removed) (hremoved : removed.length = n) (hpos : 0 < n)
    (hbuffer : s'.buffer = s.buffer - n) (hi : s'.i = s.i - n) (hstop : s'.stop = s.stop - n)
    (hmem : HoldsAt s'.mem 0 (h'.text ++ rest)) (hskip : s'.skipNewline = h'.skipNewline)
    (hnewline : s'.newlineFound = h'.newlineFound) (hshort : h'.shortened = true)
    (hstart : 0 ≤ s'.chunkStart) : s'.advance.Inv h' rest size := by
  have hlen := congrArg List.length htext
  rw [List.length_append, List.length_append, List.length_singleton] at hlen
  have hi' := hs.i
  have hstop' := hs.stop
  have hle := hs.le
  rw [List.length_cons] at hstop'
  push_cast at hstop'
  refine ⟨?_, ?_, ?_, hmem, hskip, hnewline, ?_, ?_, hstart⟩
  · rw [advance, hbuffer, hi, hs.buffer]
  · show s'.i + 1 = _
    omega
  · show s'.stop = _
    omega
  · show s'.stop ≤ _
    omega
  · refine iff_of_true hshort ?_
    show s'.stop < _
    omega

theorem carriageReturn_inv (hs : s.Inv h (x :: rest) size) {h' : Handled} (htext : h'.text = h.text ++ [0x0a])
    (hskip : h'.skipNewline = true) (hnewline : h'.newlineFound = true) (hshort : h'.shortened = h.shortened) :
    s.carriageReturn.advance.Inv h' rest size ∧ (s.carriageReturn.advance.Inside size ↔ s.Inside size) := by
  obtain ⟨h0, h1, h2⟩ := hs.current_le
  refine ⟨hs.append (echoBack_buffer _ _ _) (echoBack_i _ _ _) (echoBack_stop _ _ _) (echoBack_mem _ _ _) htext
    hskip.symm hnewline.symm hshort (echoBack_chunkStart _ _ _ hs.chunkStart h0), ?_⟩
  show ((s.store s.buffer 0x0a).echoBack s.buffer returnNewline).Inside size ↔ _
  have hstart : 0 ≤ (s.store s.buffer 0x0a).chunkStart := hs.chunkStart
  rw [inside_echoBack hstart (by omega), inside_store, and_iff_left ⟨h0, h1.trans h2⟩]

theorem dropNewline_inv (hs : s.Inv h (x :: rest) size) {h' : Handled} (htext : h'.text = h.text)
    (hskip : h'.skipNewline = false) (hnewline : h'.newlineFound = h.newlineFound) (hshort : h'.shortened = true) :
    s.dropNewline.advance.Inv h' rest size ∧ (s.dropNewline.advance.Inside size ↔ s.Inside size) := by
  obtain ⟨h0, h1, h2⟩ := hs.current_le
  have hbuffer := hs.buffer
  have hlen : (rest.length : ℤ) ≤ s.stop - s.i - 1 := by
    rw [hs.stop, hs.i, List.length_cons]
    push_cast
    omega
  have hcontent : HoldsAt s.mem 0 (h.text ++ ([x] ++ rest)) := hs.content
  constructor
  · refine hs.remove (congrArg (· ++ [x]) htext.symm) rfl one_pos rfl rfl rfl ?_ hskip.symm
      (hs.newlineFound.trans hnewline.symm) hshort hs.chunkStart
    rw [htext]
    exact hcontent.memmove hlen (hbuffer.trans hs.i) (by rw [hbuffer, hs.i]; rfl)
  · show (s.memmove s.buffer (s.buffer + 1) (s.stop - s.i - 1)).Inside size ↔ _
    rw [inside_memmove, and_iff_left fun _ => ?_]
    omega

theorem newline_inv (hs : s.Inv h (0x0a :: rest) size) {h' : Handled} (htext : h'.text = h.text ++ [0x0a])
    (hskip : h'.skipNewline = h.skipNewline) (hnewline : h'.newlineFound = true)
    (hshort : h'.shortened = h.shortened) :
    s.newline.advance.Inv h' rest size ∧ (s.newline.advance.Inside size ↔ s.Inside size) := by
  obtain ⟨h0, h1, h2⟩ := hs.current_le
  have hsame : s.mem = Function.update s.mem s.buffer 0x0a := by rw [← hs.current, Function.update_eq_self]
  refine ⟨hs.append (echoBack_buffer _ _ _) (echoBack_i _ _ _) (echoBack_stop _ _ _)
    ((echoBack_mem _ _ _).trans hsame) htext ((echoBack_skipNewline _ _ _).trans (hs.skipNewline.trans hskip.symm))
    hnewline.symm hshort (echoBack_chunkStart _ _ _ hs.chunkStart h0), ?_⟩
  exact inside_echoBack hs.chunkStart (by omega) _

/-- One character too many is moved, which is in the data if they have been shortened. -/
theorem erase_inv (hs : s.Inv h (x :: rest) size) {h' : Handled} (htext : h'.text = h.text.dropLast)
    (hskip : h'.skipNewline = h.skipNewline) (hnewline : h'.newlineFound = h.newlineFound)
    (hshort : h'.shortened = true) :
    s.erase.advance.Inv h' rest size ∧ (s.erase.advance.Inside size ↔ s.Inside size ∧ h.shortened = true) := by
  obtain ⟨h0, h1, h2⟩ := hs.current_le
  have hbuffer := hs.buffer
  have hstop := hs.stop
  have hi := hs.i
  rw [List.length_cons] at hstop
  push_cast at hstop
  -- what is removed: the character, and the one before it if there is one
  obtain ⟨n, removed, hn, hremoved, hlength, hpos⟩ : ∃ (n : ℤ) (removed : List UInt8),
      (if s.i = 0 then 1 else 2) = n ∧ h.text ++ [x] = h'.text ++ removed ∧ removed.length = n ∧ 0 < n := by
    rw [htext]
    obtain hnil | ⟨init, y, hy⟩ := List.eq_nil_or_concat' h.text
    · refine ⟨1, [x], ?_, by rw [hnil]; rfl, rfl, by decide⟩
      rw [if_pos (by rw [hi, hnil]; rfl)]
    · refine ⟨2, [y, x], ?_, by rw [hy, List.dropLast_concat]; simp, rfl, by decide⟩
      rw [if_neg (by rw [hi, hy, List.length_append, List.length_singleton]; omega)]
  have hlen : (h.text.length : ℤ) + 1 = h'.text.length + n := by
    have := congrArg List.length hremoved
    rw [List.length_append, List.length_append, List.length_singleton] at this
    omega
  have hcontent : HoldsAt s.mem 0 (h'.text ++ (removed ++ rest)) := by
    rw [← List.append_assoc, ← hremoved, List.append_assoc]
    exact hs.content
  have hstart := hs.chunkStart
  rw [erase]
  simp only [echoBack_i, echoBack_buffer, echoBack_stop, hn]
  constructor
  · refine hs.remove hremoved hlength hpos (congrArg (· - n) (echoBack_buffer s s.buffer eraseEcho))
      (congrArg (· - n) (echoBack_i s s.buffer eraseEcho)) (congrArg (· - n) (echoBack_stop s s.buffer eraseEcho)) ?_
      ((echoBack_skipNewline _ _ _).trans (hs.skipNewline.trans hskip.symm))
      ((echoBack_newlineFound _ _ _).trans (hs.newlineFound.trans hnewline.symm)) hshort ?_
    · refine HoldsAt.memmove (c := removed) ?_ ?_ ?_ ?_
      · rw [echoBack_mem]
        exact hcontent
      · omega
      · omega
      · omega
    · have hn0 : 0 ≤ s.buffer - n + 1 := by omega
      have hfield := congrArg (· - n + 1) (echoBack_buffer s s.buffer eraseEcho)
      exact hn0.trans_eq hfield.symm
  · show ((s.echoBack s.buffer eraseEcho).memmove (s.buffer - (n - 1)) (s.buffer + 1) (s.stop - s.i)).Inside size ↔ _
    rw [inside_memmove, inside_echoBack hstart (by omega), hs.shortened]
    refine and_congr_right fun _ => ?_
    constructor
    · intro hin
      have := (hin (by omega)).1.2
      omega
    · intro hlt _
      exact ⟨by omega, by omega⟩

/-- **One character** is handled, and the accesses stay in the data if it is allowed. -/
theorem normalizeChar_inv (hs : s.Inv h (x :: rest) size) : s.normalizeChar.advance.Inv (h.next x) rest size ∧
    (s.normalizeChar.advance.Inside size ↔ s.Inside size ∧ h.Allows x) := by
  obtain ⟨hs', hread⟩ := hs.access
  rw [normalizeChar, hs.current, handleChar, Handled.next, ← hread]
  by_cases hr : x = 0x0d
  · have hallows : h.Allows x := fun he => absurd he (by rw [hr]; decide)
    rw [if_pos hr, if_pos hr, and_iff_left hallows]
    exact carriageReturn_inv hs' rfl rfl rfl rfl
  by_cases hn : x = 0x0a
  · subst hn
    have hallows : h.Allows 0x0a := fun he => absurd he (by decide)
    rw [if_neg hr, if_neg hr, if_pos rfl, if_pos rfl, and_iff_left hallows, hs'.skipNewline]
    by_cases hskip : h.skipNewline = true
    · rw [if_pos hskip, if_pos hskip]
      exact dropNewline_inv hs' rfl rfl rfl rfl
    · rw [if_neg hskip, if_neg hskip]
      exact newline_inv hs' rfl rfl rfl rfl
  rw [if_neg hr, if_neg hr, if_neg hn, if_neg hn]
  by_cases he : isErase x = true
  · rw [if_pos he, if_pos he, Handled.Allows, imp_iff_right he]
    exact erase_inv hs' rfl rfl rfl rfl
  · have hsame : s.mem = Function.update s.mem s.buffer x := by rw [← hs.current, Function.update_eq_self]
    have hallows : h.Allows x := fun he' => absurd he' he
    rw [if_neg he, if_neg he, and_iff_left hallows]
    exact ⟨hs'.append rfl rfl rfl hsame rfl rfl hs.newlineFound rfl hs.chunkStart, Iff.rfl⟩

/-- The rest of the characters. -/
theorem normalizeLoop_inv (hs : s.Inv h rest size) :
    (normalizeLoop rest.length s).Inv (rest.foldl Handled.next h) [] size ∧
      ((normalizeLoop rest.length s).Inside size ↔ s.Inside size ∧ h.AllowsAll rest) := by
  induction rest generalizing s h with
  | nil => exact ⟨hs, (and_iff_left trivial).symm⟩
  | cons x rest ih =>
    have hlt : s.i < s.stop := by
      have hi := hs.i
      have hstop := hs.stop
      rw [List.length_cons] at hstop
      push_cast at hstop
      omega
    obtain ⟨hx, hinside⟩ := normalizeChar_inv hs
    obtain ⟨hrest, hinside'⟩ := ih hx
    rw [List.length_cons, normalizeLoop, if_pos hlt, List.foldl_cons, Handled.AllowsAll, hinside', hinside,
      and_assoc]
    exact ⟨hrest, Iff.rfl⟩

end Char

end Cursor

/-- **A call** handles the characters that were received after some text, and its accesses stay in the data if
they are all allowed. -/
theorem TerminalDevice.normalize_inv (t : TerminalDevice) {text chunk : List UInt8}
    (h : HoldsAt mem 0 (text ++ chunk)) :
    (t.normalize mem text.length (text.length + chunk.length)).Inv
        (chunk.foldl Handled.next ⟨text, t.skipNewline, false, false⟩) [] (text.length + chunk.length) ∧
      ((t.normalize mem text.length (text.length + chunk.length)).Inside (text.length + chunk.length) ↔
        Handled.AllowsAll ⟨text, t.skipNewline, false, false⟩ chunk) := by
  have hcount : ((text.length : ℤ) + chunk.length - text.length).toNat = chunk.length := by omega
  have hstart : Cursor.Inv ⟨t.echo, t.skipNewline, text.length, mem, text.length, text.length,
      text.length + chunk.length, false, [], []⟩ ⟨text, t.skipNewline, false, false⟩ chunk
      (text.length + chunk.length) :=
    ⟨rfl, rfl, rfl, h, rfl, rfl, le_rfl, iff_of_false nofun (lt_irrefl _), Int.natCast_nonneg _⟩
  obtain ⟨hs, hinside⟩ := Cursor.normalizeLoop_inv hstart
  have hnone : Cursor.Inside ⟨t.echo, t.skipNewline, text.length, mem, text.length, text.length,
      text.length + chunk.length, false, [], []⟩ (text.length + chunk.length) := fun r hr => absurd hr List.not_mem_nil
  rw [and_iff_right hnone] at hinside
  rw [normalize, hcount]
  have hle := hs.le
  have hbuffer := hs.buffer
  have hi := hs.i
  have hstop := hs.stop
  rw [List.length_nil, Nat.cast_zero, add_zero] at hstop
  refine ⟨⟨?_, ?_, ?_, ?_, ?_, ?_, ?_, ?_, Cursor.echoBack_chunkStart _ _ _ hs.chunkStart (by omega)⟩, ?_⟩
  · rw [Cursor.echoBack_buffer, Cursor.echoBack_i, hs.buffer]
  · rw [Cursor.echoBack_i, hs.i]
  · rw [Cursor.echoBack_stop, hs.stop]
  · rw [Cursor.echoBack_mem]
    exact hs.content
  · rw [Cursor.echoBack_skipNewline, hs.skipNewline]
  · rw [Cursor.echoBack_newlineFound, hs.newlineFound]
  · rw [Cursor.echoBack_stop]
    exact hle
  · rw [Cursor.echoBack_stop, hs.shortened]
  · rw [Cursor.inside_echoBack hs.chunkStart (by omega)]
    exact hinside

end Miosix
