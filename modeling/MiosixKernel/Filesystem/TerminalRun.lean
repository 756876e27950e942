import MiosixKernel.Filesystem.Terminal
import Mathlib.Data.List.Induction

/-!
# The line discipline of a terminal: runs

The device delivers the characters in chunks of any size, and `normalize` is called after each one.

* `Line.receive`: what a character should do to the line;
* `Terminal.run`, `Terminal.read`: the calls on one buffer, and the loop that makes them;
* `NoErasedReturn`, `ErasesAfterDrop`: the conditions;
* **`run_terminal`**: under the first one, a call is right if and only if the second one holds.
-/

namespace Miosix

/-! ## The specification -/

/-- A line, and if the character before was a `\r`. -/
structure Line where
  text : List UInt8
  afterReturn : Bool

namespace Line

def appendsNewline (l : Line) (c : UInt8) : Bool := c = 0x0d || (c = 0x0a && !l.afterReturn)

def receive (l : Line) (c : UInt8) : Line where
  text :=
    if l.appendsNewline c then l.text ++ [0x0a]
    else if c = 0x0a then l.text
    else if isErase c then l.text.dropLast
    else l.text ++ [c]
  afterReturn := c = 0x0d

end Line

/-- The line after some characters. -/
def line (received : List UInt8) : Line := received.foldl Line.receive ⟨[], false⟩

/-- What a call should do with a chunk that comes after some characters. -/
structure CallRight (before chunk : List UInt8) (c : Cursor) (size : ℤ) : Prop where
  text : HoldsAt c.mem 0 (line (before ++ chunk)).text
  stop : c.stop = (line (before ++ chunk)).text.length
  newline : c.newlineFound = true ↔ ∃ a x b, chunk = a ++ x :: b ∧ (line (before ++ a)).appendsNewline x = true
  inside : c.Inside size

/-- No `\n` comes after a `\r` with only erased characters between them. -/
def NoErasedReturn (received : List UInt8) : Prop :=
  ∀ c e b, received = c ++ 0x0d :: e ++ 0x0a :: b → (∀ y ∈ e, isErase y = true) → e = []

/-- The first erase of a chunk comes after a `\n` of that chunk that was dropped. -/
def ErasesAfterDrop (before chunk : List UInt8) : Prop :=
  ∀ a x b, chunk = a ++ x :: b → isErase x = true → (∀ y ∈ a, isErase y = false) →
    ∃ a₁ a₂, a = a₁ ++ 0x0a :: a₂ ∧ (before ++ a₁).getLast? = some 0x0d

/-! ## Calls -/

/-- A terminal with a buffer. -/
structure Terminal where
  device : TerminalDevice
  mem : ℤ → UInt8
  readBytes : ℤ

/-- The device reads a chunk into the buffer. -/
def readBlock (mem : ℤ → UInt8) (p : ℤ) (chunk : List UInt8) : ℤ → UInt8 := fun x =>
  if p ≤ x ∧ x < p + chunk.length then chunk.getD (x - p).toNat 0 else mem x

namespace Terminal

def init (echo : Bool) (mem : ℤ → UInt8) : Terminal := ⟨⟨echo, false⟩, mem, 0⟩

def call (s : Terminal) (chunk : List UInt8) : Cursor :=
  s.device.normalize (readBlock s.mem s.readBytes chunk) s.readBytes (s.readBytes + chunk.length)

def after (s : Terminal) (c : Cursor) : Terminal := ⟨⟨s.device.echo, c.skipNewline⟩, c.mem, c.stop⟩

/-- Successive calls. -/
def run (s : Terminal) (chunks : List (List UInt8)) : Terminal := chunks.foldl (fun s chunk => s.after (s.call chunk)) s

/-- The loop of `TerminalDevice::read`, up to a newline or until the buffer is full. It returns with the chunks
that the device has left. -/
def read (length : ℤ) (s : Terminal) : List (List UInt8) → Option (Terminal × List (List UInt8))
  | [] => none
  | chunk :: chunks =>
    let c := s.call chunk
    if c.stop = length ∨ c.newlineFound = true then some (s.after c, chunks) else (s.after c).read length chunks

/-- What `read` returns is what successive calls return. -/
theorem read_eq_run {length : ℤ} {s s' : Terminal} {chunks rest : List (List UInt8)}
    (h : s.read length chunks = some (s', rest)) : ∃ read, chunks = read ++ rest ∧ s.run read = s' := by
  induction chunks generalizing s with
  | nil => cases h
  | cons chunk chunks ih =>
    rw [read] at h
    split_ifs at h with hdone
    · obtain ⟨rfl, rfl⟩ := Prod.mk.inj (Option.some.inj h)
      exact ⟨[chunk], rfl, rfl⟩
    · obtain ⟨read, rfl, hrun⟩ := ih h
      exact ⟨chunk :: read, rfl, hrun⟩

end Terminal

/-! ## The text of the code and of the line -/

section Text

variable {w a b chunk before : List UInt8} {x : UInt8} {h h' : Handled}

/-- What the code makes of some characters, starting with an empty buffer. -/
def handled (received : List UInt8) : Handled := received.foldl Handled.next ⟨[], false, false, false⟩

theorem line_concat : line (w ++ [x]) = (line w).receive x := by rw [line, List.foldl_append]; rfl

theorem handled_concat : handled (w ++ [x]) = (handled w).next x := by rw [handled, List.foldl_append]; rfl

theorem line_afterReturn : (line w).afterReturn = true ↔ w.getLast? = some 0x0d := by
  obtain rfl | ⟨w, x, rfl⟩ := List.eq_nil_or_concat' w
  · exact iff_of_false nofun nofun
  · rw [line_concat, List.getLast?_concat, Option.some.injEq]
    exact decide_eq_true_iff

/-- The last character that is not an erase is a `\r`. -/
def ReturnThenErases (w : List UInt8) : Prop := ∃ c e, w = c ++ 0x0d :: e ∧ ∀ y ∈ e, isErase y = true

theorem returnThenErases_concat : ReturnThenErases (w ++ [x]) ↔ x = 0x0d ∨ (isErase x = true ∧ ReturnThenErases w) := by
  constructor
  · rintro ⟨c, e, heq, he⟩
    obtain rfl | ⟨e, y, rfl⟩ := List.eq_nil_or_concat' e
    · obtain ⟨-, hx⟩ := List.append_inj' heq rfl
      exact .inl (List.singleton_inj.1 hx)
    · rw [← List.cons_append, ← List.append_assoc] at heq
      obtain ⟨rfl, hx⟩ := List.append_inj' heq rfl
      obtain rfl := List.singleton_inj.1 hx
      exact .inr ⟨he x (by simp), c, e, rfl, fun y hy => he y (List.mem_append_left _ hy)⟩
  · rintro (rfl | ⟨hx, c, e, rfl, he⟩)
    · exact ⟨w, [], rfl, nofun⟩
    · refine ⟨c, e ++ [x], by simp, fun y hy => ?_⟩
      obtain hy | hy := List.mem_append.1 hy
      · exact he y hy
      · rwa [List.mem_singleton.1 hy]

theorem next_skipNewline : (h.next x).skipNewline = true ↔ x = 0x0d ∨ (isErase x = true ∧ h.skipNewline = true) := by
  rw [Handled.next]
  by_cases hr : x = 0x0d
  · rw [if_pos hr]
    exact iff_of_true rfl (.inl hr)
  by_cases hn : x = 0x0a
  · subst hn
    rw [if_neg hr, if_pos rfl]
    have hnot : ¬ (isErase 0x0a = true) := by decide
    cases hskip : h.skipNewline <;> simp [hnot]
  by_cases he : isErase x = true
  · rw [if_neg hr, if_neg hn, if_pos he]
    simp [hr, he]
  · rw [if_neg hr, if_neg hn, if_neg he]
    simp [hr, he]

/-- An erase does not reset the flag. -/
theorem handled_skipNewline : (handled w).skipNewline = true ↔ ReturnThenErases w := by
  induction w using List.reverseRecOn with
  | nil =>
    refine iff_of_false nofun ?_
    rintro ⟨c, e, heq, -⟩
    exact List.append_ne_nil_of_right_ne_nil c (List.cons_ne_nil _ _) heq.symm
  | append_singleton w x ih => rw [handled_concat, next_skipNewline, returnThenErases_concat, ih]

theorem NoErasedReturn.of_append (h : NoErasedReturn (a ++ b)) : NoErasedReturn a := fun c e b' heq =>
  h c e (b' ++ b) (by rw [heq]; simp)

/-- Before a `\n`, the flag tells about the last character. -/
theorem skipNewline_iff_afterReturn (h : NoErasedReturn (w ++ 0x0a :: b)) :
    (handled w).skipNewline = true ↔ (line w).afterReturn = true := by
  rw [handled_skipNewline, line_afterReturn]
  constructor
  · rintro ⟨c, e, rfl, he⟩
    obtain rfl := h c e b rfl he
    rw [List.getLast?_concat]
  · intro hlast
    obtain ⟨c, rfl⟩ := List.getLast?_eq_some_iff.1 hlast
    exact ⟨c, [], rfl, nofun⟩

/-- **The text** of the code is the line. -/
theorem handled_text (h : NoErasedReturn w) : (handled w).text = (line w).text := by
  induction w using List.reverseRecOn with
  | nil => rfl
  | append_singleton w x ih =>
    have htext := ih h.of_append
    rw [handled_concat, line_concat, Handled.next, Line.receive, htext]
    by_cases hr : x = 0x0d
    · subst hr
      rw [if_pos rfl]
      rfl
    by_cases hn : x = 0x0a
    · subst hn
      have hskip := skipNewline_iff_afterReturn h
      rw [if_neg hr, if_pos rfl]
      cases hafter : (line w).afterReturn with
      | true =>
        rw [if_pos (hskip.2 hafter)]
        simp [Line.appendsNewline, hafter]
      | false =>
        rw [if_neg (mt hskip.1 (by simp [hafter]))]
        simp [Line.appendsNewline, hafter]
    have hkeep : (line w).appendsNewline x = false := by simp [Line.appendsNewline, hr, hn]
    rw [if_neg hr, if_neg hn, hkeep, if_neg Bool.false_ne_true, if_neg hn]
    split_ifs <;> rfl

/-! ## One call -/

/-- A call starts with its flags reset. -/
def Handled.fresh (h : Handled) : Handled := ⟨h.text, h.skipNewline, false, false⟩

theorem next_fresh (h h' : Handled) (heq : h.fresh = h'.fresh) (x : UInt8) : (h.next x).fresh = (h'.next x).fresh := by
  obtain ⟨text, skip, _, _⟩ := h
  obtain ⟨text', skip', _, _⟩ := h'
  obtain ⟨rfl, rfl⟩ : text = text' ∧ skip = skip' := by simpa [Handled.fresh] using heq
  unfold Handled.next
  split_ifs <;> rfl

theorem foldl_fresh (h h' : Handled) (heq : h.fresh = h'.fresh) (w : List UInt8) :
    (w.foldl Handled.next h).fresh = (w.foldl Handled.next h').fresh := by
  induction w generalizing h h' with
  | nil => exact heq
  | cons x w ih => exact ih _ _ (next_fresh h h' heq x)

/-- In a call the text and the flag go on from those before. -/
theorem foldl_handled (before a : List UInt8) :
    (a.foldl Handled.next (handled before).fresh).fresh = (handled (before ++ a)).fresh := by
  have happend : handled (before ++ a) = a.foldl Handled.next (handled before) := List.foldl_append
  rw [happend]
  exact foldl_fresh (handled before).fresh (handled before) rfl a

/-- A flag that some characters set. -/
theorem foldl_flag {f : Handled → Bool} {Q : Handled → UInt8 → Prop}
    (hstep : ∀ h x, f (h.next x) = true ↔ f h = true ∨ Q h x) (h : Handled) (w : List UInt8) :
    f (w.foldl Handled.next h) = true ↔ f h = true ∨ ∃ a x b, w = a ++ x :: b ∧ Q (a.foldl Handled.next h) x := by
  induction w generalizing h with
  | nil => simp
  | cons y w ih =>
    rw [List.foldl_cons, ih, hstep, or_assoc]
    refine or_congr_right ?_
    constructor
    · rintro (hy | ⟨a, x, b, rfl, hx⟩)
      · exact ⟨[], y, w, rfl, hy⟩
      · exact ⟨y :: a, x, b, rfl, hx⟩
    · rintro ⟨a, x, b, heq, hx⟩
      cases a with
      | nil =>
        obtain ⟨rfl, rfl⟩ := List.cons.inj heq
        exact .inl hx
      | cons z a =>
        obtain ⟨rfl, rfl⟩ := List.cons.inj heq
        exact .inr ⟨a, x, b, rfl, hx⟩

theorem next_newlineFound (h : Handled) (x : UInt8) : (h.next x).newlineFound = true ↔
    h.newlineFound = true ∨ (x = 0x0d ∨ (x = 0x0a ∧ h.skipNewline = false)) := by
  unfold Handled.next
  split_ifs with hr hn hskip he <;> simp_all

theorem next_shortened (h : Handled) (x : UInt8) : (h.next x).shortened = true ↔
    h.shortened = true ∨ (isErase x = true ∨ (x = 0x0a ∧ h.skipNewline = true)) := by
  have hr' : isErase 0x0d = false := by decide
  have hn' : isErase 0x0a = false := by decide
  unfold Handled.next
  split_ifs with hr hn hskip he <;> simp_all

theorem allowsAll_iff (h : Handled) (w : List UInt8) :
    h.AllowsAll w ↔ ∀ a x b, w = a ++ x :: b → (a.foldl Handled.next h).Allows x := by
  induction w generalizing h with
  | nil => simp [Handled.AllowsAll]
  | cons y w ih =>
    rw [Handled.AllowsAll, ih]
    constructor
    · rintro ⟨hy, hw⟩ a x b heq
      cases a with
      | nil =>
        obtain ⟨rfl, rfl⟩ := List.cons.inj heq
        exact hy
      | cons z a =>
        obtain ⟨rfl, rfl⟩ := List.cons.inj heq
        exact hw a x b rfl
    · intro hall
      exact ⟨hall [] y w rfl, fun a x b heq => hall (y :: a) x b (by rw [heq]; rfl)⟩

/-- The characters that are allowed are those of the condition. -/
theorem allowsAll_iff_erasesAfterDrop (h : NoErasedReturn (before ++ chunk)) :
    (handled before).fresh.AllowsAll chunk ↔ ErasesAfterDrop before chunk := by
  have hskip : ∀ a, (a.foldl Handled.next (handled before).fresh).skipNewline = (handled (before ++ a)).skipNewline :=
    fun a =>
    (Handled.mk.inj (foldl_handled before a)).2.1
  -- a `\n` that the code drops comes right after a `\r`
  have hdrop : ∀ a b, chunk = a ++ 0x0a :: b →
      ((handled (before ++ a)).skipNewline = true ↔ (before ++ a).getLast? = some 0x0d) := fun a b heq => by
    rw [skipNewline_iff_afterReturn (b := b) (by rwa [List.append_assoc, ← heq]), line_afterReturn]
  rw [allowsAll_iff]
  constructor
  · intro hall a x b heq hx hfirst
    obtain hfalse | ⟨a₁, y, a₂, rfl, hy | ⟨rfl, hy⟩⟩ := (foldl_flag next_shortened _ a).1 (hall a x b heq hx)
    · cases hfalse
    · rw [hfirst y (by simp)] at hy
      cases hy
    · rw [hskip] at hy
      exact ⟨a₁, a₂, rfl, (hdrop a₁ (a₂ ++ x :: b) (by rw [heq]; simp)).1 hy⟩
  · intro hcond a x b heq hx
    refine (foldl_flag next_shortened _ a).2 (.inr ?_)
    by_cases hfirst : ∀ y ∈ a, isErase y = false
    · obtain ⟨a₁, a₂, rfl, hlast⟩ := hcond a x b heq hx hfirst
      refine ⟨a₁, 0x0a, a₂, rfl, .inr ⟨rfl, ?_⟩⟩
      rw [hskip]
      exact (hdrop a₁ (a₂ ++ x :: b) (by rw [heq]; simp)).2 hlast
    · simp only [not_forall, Bool.not_eq_false] at hfirst
      obtain ⟨y, hmem, hy⟩ := hfirst
      obtain ⟨a₁, a₂, rfl⟩ := List.append_of_mem hmem
      exact ⟨a₁, y, a₂, rfl, .inl hy⟩

/-- The newlines that the code finds are those that are appended. -/
theorem newlineFound_iff (h : NoErasedReturn (before ++ chunk)) :
    (chunk.foldl Handled.next (handled before).fresh).newlineFound = true ↔
      ∃ a x b, chunk = a ++ x :: b ∧ (line (before ++ a)).appendsNewline x = true := by
  have hskip : ∀ a, (a.foldl Handled.next (handled before).fresh).skipNewline = (handled (before ++ a)).skipNewline :=
    fun a => (Handled.mk.inj (foldl_handled before a)).2.1
  rw [foldl_flag next_newlineFound]
  refine (or_iff_right nofun).trans ?_
  refine exists_congr fun a => exists_congr fun x => exists_congr fun b => and_congr_right fun heq => ?_
  rw [hskip, Line.appendsNewline, Bool.or_eq_true, Bool.and_eq_true, decide_eq_true_iff, decide_eq_true_iff,
    Bool.not_eq_true']
  refine or_congr_right (and_congr_right fun hx => ?_)
  subst hx
  have hiff := skipNewline_iff_afterReturn (w := before ++ a) (b := b) (by rwa [List.append_assoc, ← heq])
  rw [← Bool.not_eq_true, ← Bool.not_eq_true, hiff]

end Text

/-! ## Every run -/

theorem holdsAt_readBlock {mem : ℤ → UInt8} {text : List UInt8} (h : HoldsAt mem 0 text) (chunk : List UInt8) :
    HoldsAt (readBlock mem text.length chunk) 0 (text ++ chunk) := by
  have hall : ∀ (p : ℤ) (w : List UInt8), HoldsAt (fun x => w.getD (x - p).toNat 0) p w := by
    intro p w
    induction w generalizing p with
    | nil => trivial
    | cons c w ih =>
      refine ⟨by simp, (ih (p + 1)).congr fun y hy hlt => ?_⟩
      have hsucc : (y - p).toNat = (y - (p + 1)).toNat + 1 := by omega
      rw [hsucc, List.getD_cons_succ]
  rw [holdsAt_append, zero_add]
  constructor
  · refine h.congr fun y hy hlt => ?_
    rw [readBlock, if_neg (by omega)]
  · refine (hall text.length chunk).congr fun y hy hlt => ?_
    rw [readBlock, if_pos ⟨hy, hlt⟩]

/-- The buffer of a terminal after some characters. -/
structure Terminal.After (s : Terminal) (received : List UInt8) : Prop where
  text : HoldsAt s.mem 0 (handled received).text
  readBytes : s.readBytes = (handled received).text.length
  skipNewline : s.device.skipNewline = (handled received).skipNewline

namespace Terminal

variable {s : Terminal} {received chunk : List UInt8}

/-- **One call**, after some characters. -/
theorem call_spec (h : s.After received) (chunk : List UInt8) :
    (s.call chunk).Inv (chunk.foldl Handled.next (handled received).fresh) [] (s.readBytes + chunk.length) ∧
      ((s.call chunk).Inside (s.readBytes + chunk.length) ↔ (handled received).fresh.AllowsAll chunk) := by
  have hcall := s.device.normalize_inv (holdsAt_readBlock h.text chunk)
  rw [h.skipNewline] at hcall
  rw [call, h.readBytes]
  exact hcall

theorem after_call (h : s.After received) (chunk : List UInt8) : (s.after (s.call chunk)).After (received ++ chunk) := by
  obtain ⟨hs, -⟩ := call_spec h chunk
  obtain ⟨htext, hskip, -, -⟩ := Handled.mk.inj (foldl_handled received chunk)
  have hcontent := hs.content
  have hstop := hs.stop
  rw [List.append_nil] at hcontent
  rw [List.length_nil, Nat.cast_zero, add_zero] at hstop
  rw [htext] at hcontent hstop
  exact ⟨hcontent, hstop, hs.skipNewline.trans hskip⟩

/-- **A whole run** of calls. -/
theorem run_spec (h : s.After received) (chunks : List (List UInt8)) :
    (s.run chunks).After (received ++ chunks.flatten) := by
  induction chunks generalizing s received with
  | nil =>
    rw [List.flatten_nil, List.append_nil]
    exact h
  | cons chunk chunks ih =>
    rw [List.flatten_cons, ← List.append_assoc]
    exact ih (after_call h chunk)

theorem after_init (echo : Bool) (mem : ℤ → UInt8) : (init echo mem).After [] := ⟨trivial, rfl, rfl⟩

end Terminal

/-- **The line discipline.** Whatever was received before and in whatever chunks, a call is right if every erase
has a dropped `\n` before it in its chunk, and only then, as long as no `\n` comes after a `\r` that was
erased. -/
theorem run_terminal (echo : Bool) (mem : ℤ → UInt8) (chunks : List (List UInt8)) (chunk : List UInt8)
    (h : NoErasedReturn (chunks.flatten ++ chunk)) :
    CallRight chunks.flatten chunk (((Terminal.init echo mem).run chunks).call chunk)
        (((Terminal.init echo mem).run chunks).readBytes + chunk.length) ↔
      ErasesAfterDrop chunks.flatten chunk := by
  have hrun := Terminal.run_spec (Terminal.after_init echo mem) chunks
  rw [List.nil_append] at hrun
  obtain ⟨hs, hinside⟩ := Terminal.call_spec hrun chunk
  obtain ⟨htext, -, -, -⟩ := Handled.mk.inj (foldl_handled chunks.flatten chunk)
  have hcontent := hs.content
  have hstop := hs.stop
  rw [List.append_nil] at hcontent
  rw [List.length_nil, Nat.cast_zero, add_zero] at hstop
  rw [htext, handled_text h] at hcontent hstop
  have hnewline := newlineFound_iff h
  rw [← hs.newlineFound] at hnewline
  rw [allowsAll_iff_erasesAfterDrop h] at hinside
  exact ⟨fun hright => hinside.1 hright.inside, fun hcond => ⟨hcontent, hstop, hnewline, hinside.2 hcond⟩⟩

/-- After a `\r`, a `\n` that is dropped, and a character that is erased. -/
theorem run_terminal_erase : CallRight [0x0d] [0x0a, 0x61, 0x08, 0x62]
    (((Terminal.init true fun _ => 0).run [[0x0d]]).call [0x0a, 0x61, 0x08, 0x62])
    (((Terminal.init true fun _ => 0).run [[0x0d]]).readBytes + 4) := by
  have hreturn : NoErasedReturn ([0x0d] ++ [0x0a, 0x61, 0x08, 0x62]) := by
    rintro c e b heq he
    cases c with
    | nil =>
      cases e with
      | nil => rfl
      | cons y e =>
        have hy : 0x0a = y := (List.cons.inj (List.cons.inj heq).2).1
        exact absurd (he y List.mem_cons_self) (by rw [← hy]; decide)
    | cons z c =>
      have hmem : (0x0d : UInt8) ∈ [0x0a, 0x61, 0x08, 0x62] := by
        have htail : [0x0a, 0x61, 0x08, 0x62] = c ++ 0x0d :: e ++ 0x0a :: b := (List.cons.inj heq).2
        rw [htail]
        simp
      exact absurd hmem (by decide)
  refine (run_terminal true (fun _ => 0) [[0x0d]] [0x0a, 0x61, 0x08, 0x62] hreturn).2 ?_
  intro a x b heq hx _
  cases a with
  | nil =>
    have hx' : 0x0a = x := (List.cons.inj heq).1
    exact absurd hx (by rw [← hx']; decide)
  | cons y a =>
    obtain rfl : 0x0a = y := (List.cons.inj heq).1
    exact ⟨[], a, rfl, rfl⟩

/-- A `\r` that is erased, and a `\n`: the line is lost. -/
theorem not_right_erased_return : ¬ CallRight [] [0x0d, 0x08, 0x0a]
    ((Terminal.init true fun _ => 0).call [0x0d, 0x08, 0x0a]) 3 := by
  intro h
  have hlost : ((Terminal.init true fun _ => 0).call [0x0d, 0x08, 0x0a]).stop = 0 := by decide +kernel
  have hline : (line ([] ++ [0x0d, 0x08, 0x0a])).text.length = 1 := by decide
  have hstop := h.stop
  rw [hlost, hline] at hstop
  exact absurd hstop (by decide)

end Miosix
