import MiosixKernel.Lib.Fifo
import MiosixKernel.Lib.Ring

/-!
# Queues without synchronization

`DynUnsyncQueue` is a ring of elements. `BufferQueue` is a ring of buffers that are lent: a side asks for a
buffer, uses it, and gives it back later. The caller does the synchronization, so that a call is one step.

* `DynUnsyncQueue`, `tryPut`, `tryGet`: the code; `simulates_fifo`: it is a bounded queue;
* `BufferQueue`, `tryGetWritableBuffer`, `bufferFilled`, `tryGetReadableBuffer`, `bufferEmptied`: the code;
* `BufferSystem`, `step`, `run`: one writer and one reader, with what each holds;
* `Lent`: the invariant;
* **`queues_are_fifos`**: what holds of every sequence of calls.
-/

namespace Miosix

open Lib

variable {α β : Type}

/-! ## The queue of elements -/

structure DynUnsyncQueue (α : Type) where
  data : ℕ → α
  putPos : ℕ
  getPos : ℕ
  queueSize : ℕ
  queueCapacity : ℕ

namespace DynUnsyncQueue

variable (q : DynUnsyncQueue α)

/-- The constructor. What is in the memory of the new elements is not known. -/
def new (data : ℕ → α) (elem : ℕ) : DynUnsyncQueue α := ⟨data, 0, 0, 0, elem⟩

def isEmpty : Bool := q.queueSize == 0

def isFull : Bool := q.queueSize == q.queueCapacity

/-- A position is advanced. -/
def wrap (pos : ℕ) : ℕ := if q.queueCapacity ≤ (pos + 1) % 2 ^ 32 then 0 else (pos + 1) % 2 ^ 32

def tryPut (elem : α) : DynUnsyncQueue α × Bool :=
  if q.isFull then (q, false)
  else ({ q with
    queueSize := (q.queueSize + 1) % 2 ^ 32
    data := Function.update q.data q.putPos elem
    putPos := q.wrap q.putPos }, true)

/-- The element is stored only if there is one. -/
def tryGet : DynUnsyncQueue α × Option α :=
  if q.isEmpty then (q, none)
  else ({ q with queueSize := q.queueSize - 1, getPos := q.wrap q.getPos }, some (q.data q.getPos))

def reset : DynUnsyncQueue α := { q with putPos := 0, getPos := 0, queueSize := 0 }

/-- A call, with its answer. -/
def step (q : DynUnsyncQueue α) : FifoOp α → DynUnsyncQueue α × FifoReply α
  | .put elem => ((q.tryPut elem).1, .put (q.tryPut elem).2)
  | .get => (q.tryGet.1, .get q.tryGet.2)
  | .clear => (q.reset, .clear)

/-- The queue holds the elements `l`. -/
structure Represents (cap : ℕ) (q : DynUnsyncQueue α) (l : List α) : Prop where
  capacity : q.queueCapacity = cap
  ring : RingPos cap q.putPos q.getPos q.queueSize
  contents : l = ringContents cap q.data q.getPos q.queueSize

variable {q} {cap : ℕ} {l : List α}

theorem wrap_eq (h32 : cap < 2 ^ 32) (hcap : q.queueCapacity = cap) {pos : ℕ} (hpos : pos < cap) :
    q.wrap pos = (pos + 1) % cap := by
  rw [wrap, hcap, Nat.mod_eq_of_lt (by omega), ← wrap_eq_mod hpos]
  by_cases h : pos + 1 = cap
  · rw [if_pos h, if_pos h.ge]
  · rw [if_neg h, if_neg (by omega)]

theorem new_represents (hcap : 0 < cap) (data : ℕ → α) : (new data cap).Represents cap [] :=
  ⟨rfl, RingPos.empty hcap, rfl⟩

namespace Represents

theorem length (h : q.Represents cap l) : l.length = q.queueSize := by
  rw [h.contents, length_ringContents]

theorem put (h32 : cap < 2 ^ 32) (h : q.Represents cap l) (elem : α) :
    (q.tryPut elem).2 = decide (l.length ≠ cap) ∧
      (q.tryPut elem).1.Represents cap (if l.length = cap then l else l ++ [elem]) := by
  have hfull : q.isFull = decide (l.length = cap) := by
    rw [isFull, h.capacity, h.length]
    rfl
  rw [tryPut, hfull]
  by_cases hl : l.length = cap
  · rw [if_pos (decide_eq_true hl), if_pos hl]
    exact ⟨by simp [hl], h⟩
  · rw [if_neg (by simpa using hl), if_neg hl]
    have hlt : q.queueSize < cap := lt_of_le_of_ne h.ring.count (h.length ▸ hl)
    have hsize : (q.queueSize + 1) % 2 ^ 32 = q.queueSize + 1 := Nat.mod_eq_of_lt (by omega)
    refine ⟨by simp [hl], h.capacity, ?_, ?_⟩
    · change RingPos cap (q.wrap q.putPos) q.getPos ((q.queueSize + 1) % 2 ^ 32)
      rw [wrap_eq h32 h.capacity h.ring.put_lt, hsize]
      exact h.ring.push hlt
    · change l ++ [elem] = ringContents cap (Function.update q.data q.putPos elem) q.getPos ((q.queueSize + 1) % 2 ^ 32)
      rw [hsize, ringContents_push h.ring hlt, h.contents]

theorem get (h32 : cap < 2 ^ 32) (h : q.Represents cap l) :
    q.tryGet.2 = l.head? ∧ q.tryGet.1.Represents cap l.tail := by
  have hempty : q.isEmpty = decide (l.length = 0) := by
    rw [isEmpty, h.length]
    rfl
  rw [tryGet, hempty]
  by_cases hl : l.length = 0
  · obtain rfl := List.eq_nil_of_length_eq_zero hl
    exact ⟨rfl, h⟩
  · rw [if_neg (by simpa using hl)]
    have hpos : 0 < q.queueSize := Nat.pos_of_ne_zero (h.length ▸ hl)
    have hpop := ringContents_pop h.ring hpos q.data
    refine ⟨by rw [h.contents, hpop]; rfl, h.capacity, ?_, ?_⟩
    · change RingPos cap q.putPos (q.wrap q.getPos) (q.queueSize - 1)
      rw [wrap_eq h32 h.capacity h.ring.get_lt]
      exact h.ring.pop hpos
    · change l.tail = ringContents cap q.data (q.wrap q.getPos) (q.queueSize - 1)
      rw [wrap_eq h32 h.capacity h.ring.get_lt, h.contents, hpop, List.tail_cons]

end Represents

/-- **A bounded queue.** -/
theorem simulates_fifo (hcap : 0 < cap) (h32 : cap < 2 ^ 32) :
    Simulates (step (α := α)) (fifoStep cap) (Represents cap) where
  reply q l i h := by
    cases i with
    | put x =>
      rw [step, fifoStep, (h.put h32 x).1]
      by_cases hl : l.length = cap <;> simp [hl]
    | get => rw [step, fifoStep, (h.get h32).1]
    | clear => rfl
  next q l i h := by
    cases i with
    | put x =>
      have hput := (h.put h32 x).2
      rw [step, fifoStep]
      by_cases hl : l.length = cap
      · simpa [hl] using hput
      · simpa [hl] using hput
    | get => exact (h.get h32).2
    | clear => exact ⟨h.capacity, RingPos.empty hcap, rfl⟩

end DynUnsyncQueue

/-! ## The queue of buffers -/

structure BufferQueue (β : Type) where
  /-- The buffers. -/
  buf : ℕ → β
  /-- To handle partially empty buffers. -/
  bufSize : ℕ → ℕ
  put : ℕ
  get : ℕ
  /-- Number of filled buffers. -/
  cnt : ℕ

/-- Why a call is not made, or does not return: the caller was lent no buffer, or `errorHandler(UNEXPECTED)`. -/
inductive BufferFault where
  | notLent
  | unexpected
deriving DecidableEq

namespace BufferQueue

variable (numbuf : ℕ) (q : BufferQueue β)

def new (buf : ℕ → β) (bufSize : ℕ → ℕ) : BufferQueue β := ⟨buf, bufSize, 0, 0, 0⟩

def isEmpty : Bool := q.cnt == 0

def isFull : Bool := q.cnt == numbuf

/-- A position of 8 bits is advanced. -/
def wrap (pos : ℕ) : ℕ := if numbuf ≤ (pos + 1) % 2 ^ 8 then 0 else (pos + 1) % 2 ^ 8

def tryGetWritableBuffer : Option ℕ := if q.isFull numbuf then none else some q.put

def bufferFilled (actualSize : ℕ) : Except BufferFault (BufferQueue β) :=
  if q.isFull numbuf then .error .unexpected
  else .ok { q with
    cnt := (q.cnt + 1) % 2 ^ 8
    bufSize := Function.update q.bufSize q.put actualSize
    put := wrap numbuf q.put }

def tryGetReadableBuffer : Option (ℕ × ℕ) := if q.isEmpty then none else some (q.get, q.bufSize q.get)

def bufferEmptied : Except BufferFault (BufferQueue β) :=
  if q.isEmpty then .error .unexpected else .ok { q with cnt := q.cnt - 1, get := wrap numbuf q.get }

def reset : BufferQueue β := { q with put := 0, get := 0, cnt := 0 }

/-- The readable buffers and their sizes, the oldest first. -/
def readable : List (β × ℕ) := ringContents numbuf (fun i => (q.buf i, q.bufSize i)) q.get q.cnt

/-- Where they are. -/
def readablePositions : List ℕ := ringContents numbuf id q.get q.cnt

end BufferQueue

/-! ## One writer and one reader -/

structure BufferSystem (β : Type) where
  queue : BufferQueue β
  /-- The buffer that the writer was lent. -/
  writer : Option ℕ
  /-- The buffer that the reader was lent, and its size. -/
  reader : Option (ℕ × ℕ)
  /-- What the buffers held when they were filled, and the sizes, since the last reset. -/
  filled : List (β × ℕ)
  /-- What the reader had before it gave the buffers back, since the last reset. -/
  taken : List (β × ℕ)

inductive BufferEvent (β : Type) where
  | tryGetWritableBuffer
  /-- The writer writes to its buffer. -/
  | write (x : β)
  | bufferFilled (actualSize : ℕ)
  | tryGetReadableBuffer
  | bufferEmptied
  /-- The queue is reset, and both sides drop the buffers that they were lent. -/
  | reset

namespace BufferSystem

variable (numbuf : ℕ)

def init (buf : ℕ → β) (bufSize : ℕ → ℕ) : BufferSystem β := ⟨.new buf bufSize, none, none, [], []⟩

/-- A call of a side. A buffer is given back only after it was lent. -/
def step (s : BufferSystem β) : BufferEvent β → Except BufferFault (BufferSystem β)
  | .tryGetWritableBuffer =>
    match s.queue.tryGetWritableBuffer numbuf with
    | some b => .ok { s with writer := some b }
    | none => .ok s
  | .write x =>
    match s.writer with
    | some b => .ok { s with queue.buf := Function.update s.queue.buf b x }
    | none => .error .notLent
  | .bufferFilled actualSize =>
    match s.writer with
    | some b => do
      let queue ← s.queue.bufferFilled numbuf actualSize
      .ok { s with queue := queue, writer := none, filled := s.filled ++ [(s.queue.buf b, actualSize)] }
    | none => .error .notLent
  | .tryGetReadableBuffer =>
    match s.queue.tryGetReadableBuffer with
    | some (b, n) => .ok { s with reader := some (b, n) }
    | none => .ok s
  | .bufferEmptied =>
    match s.reader with
    | some (b, n) => do
      let queue ← s.queue.bufferEmptied numbuf
      .ok { s with queue := queue, reader := none, taken := s.taken ++ [(s.queue.buf b, n)] }
    | none => .error .notLent
  | .reset => .ok ⟨s.queue.reset, none, none, [], []⟩

def run : BufferSystem β → List (BufferEvent β) → Except BufferFault (BufferSystem β)
  | s, [] => .ok s
  | s, e :: events => do
    let s ← s.step numbuf e
    run s events

/-! ## The invariant -/

/-- What holds between the calls. -/
structure Lent (s : BufferSystem β) : Prop where
  ring : RingPos numbuf s.queue.put s.queue.get s.queue.cnt
  history : s.filled = s.taken ++ s.queue.readable numbuf
  writer : ∀ b, s.writer = some b → b = s.queue.put ∧ s.queue.cnt < numbuf
  reader : ∀ b n, s.reader = some (b, n) → b = s.queue.get ∧ n = s.queue.bufSize b ∧ 0 < s.queue.cnt

variable {numbuf} {s s' : BufferSystem β} {f : BufferFault}

theorem init_lent (h : 0 < numbuf) (buf : ℕ → β) (bufSize : ℕ → ℕ) : (init buf bufSize).Lent numbuf where
  ring := RingPos.empty h
  history := rfl
  writer _ hb := by cases hb
  reader _ _ hb := by cases hb

theorem wrap_eq (h8 : numbuf < 2 ^ 8) {pos : ℕ} (hpos : pos < numbuf) :
    BufferQueue.wrap numbuf pos = (pos + 1) % numbuf := by
  rw [BufferQueue.wrap, Nat.mod_eq_of_lt (by omega), ← wrap_eq_mod hpos]
  by_cases h : pos + 1 = numbuf
  · rw [if_pos h, if_pos h.ge]
  · rw [if_neg h, if_neg (by omega)]

theorem update_pair (buf : ℕ → β) (bufSize : ℕ → ℕ) (p : ℕ) (x : β) (n : ℕ) :
    (fun i => (Function.update buf p x i, Function.update bufSize p n i)) =
      Function.update (fun i => (buf i, bufSize i)) p (x, n) := by
  funext i
  by_cases hi : i = p
  · subst hi
    simp
  · simp [hi]

theorem not_full (h : s.queue.cnt < numbuf) : s.queue.isFull numbuf = false := by
  rw [BufferQueue.isFull, beq_eq_false_iff_ne]
  exact h.ne

theorem not_empty (h : 0 < s.queue.cnt) : s.queue.isEmpty = false := by
  rw [BufferQueue.isEmpty, beq_eq_false_iff_ne]
  exact h.ne'

namespace Lent

theorem getWritable (h : s.Lent numbuf) {b : ℕ} (hb : s.queue.tryGetWritableBuffer numbuf = some b) :
    Lent numbuf { s with writer := some b } := by
  have hne : s.queue.isFull numbuf = false ∧ s.queue.put = b := by
    simpa [BufferQueue.tryGetWritableBuffer] using hb
  refine ⟨h.ring, h.history, ?_, h.reader⟩
  rintro c hc
  obtain rfl := Option.some.inj hc
  have hcnt : s.queue.cnt ≠ numbuf := by simpa [BufferQueue.isFull] using hne.1
  exact ⟨hne.2.symm, lt_of_le_of_ne h.ring.count hcnt⟩

theorem getReadable (h : s.Lent numbuf) {b n : ℕ} (hb : s.queue.tryGetReadableBuffer = some (b, n)) :
    Lent numbuf { s with reader := some (b, n) } := by
  have hne : s.queue.isEmpty = false ∧ s.queue.get = b ∧ s.queue.bufSize s.queue.get = n := by
    simpa [BufferQueue.tryGetReadableBuffer] using hb
  refine ⟨h.ring, h.history, h.writer, ?_⟩
  rintro c m hc
  obtain ⟨rfl, rfl⟩ := Prod.mk.inj (Option.some.inj hc)
  have hcnt : s.queue.cnt ≠ 0 := by simpa [BufferQueue.isEmpty] using hne.1
  exact ⟨hne.2.1.symm, by rw [← hne.2.1, hne.2.2], Nat.pos_of_ne_zero hcnt⟩

/-- What the writer writes is not seen by the reader. -/
theorem write (h : s.Lent numbuf) {b : ℕ} (hb : s.writer = some b) (x : β) :
    Lent numbuf { s with queue.buf := Function.update s.queue.buf b x } := by
  obtain ⟨rfl, hlt⟩ := h.writer b hb
  refine ⟨h.ring, h.history.trans ?_, h.writer, h.reader⟩
  have hpair := update_pair s.queue.buf s.queue.bufSize s.queue.put x (s.queue.bufSize s.queue.put)
  rw [Function.update_eq_self] at hpair
  rw [BufferQueue.readable, BufferQueue.readable, hpair, ringContents_update h.ring hlt]

theorem bufferFilled (h8 : numbuf < 2 ^ 8) (h : s.Lent numbuf) {b : ℕ} (hb : s.writer = some b) (n : ℕ) :
    ∃ queue, s.queue.bufferFilled numbuf n = .ok queue ∧
      Lent numbuf { s with queue := queue, writer := none, filled := s.filled ++ [(s.queue.buf b, n)] } := by
  obtain ⟨rfl, hlt⟩ := h.writer b hb
  have hcnt : (s.queue.cnt + 1) % 2 ^ 8 = s.queue.cnt + 1 := Nat.mod_eq_of_lt (by omega)
  rw [BufferQueue.bufferFilled, not_full hlt]
  refine ⟨_, rfl, ?_, ?_, by simp, ?_⟩
  · change RingPos numbuf (BufferQueue.wrap numbuf s.queue.put) s.queue.get ((s.queue.cnt + 1) % 2 ^ 8)
    rw [wrap_eq h8 h.ring.put_lt, hcnt]
    exact h.ring.push hlt
  · have hpair := update_pair s.queue.buf s.queue.bufSize s.queue.put (s.queue.buf s.queue.put) n
    rw [Function.update_eq_self] at hpair
    change s.filled ++ _ = s.taken ++ ringContents numbuf
      (fun i => (s.queue.buf i, Function.update s.queue.bufSize s.queue.put n i)) s.queue.get ((s.queue.cnt + 1) % 2 ^ 8)
    rw [hcnt, hpair, ringContents_push h.ring hlt, h.history, List.append_assoc]
    rfl
  · intro c m hc
    obtain ⟨hget, hm, hpos⟩ := h.reader c m hc
    have hne : c ≠ s.queue.put := by
      have := h.ring.put_ne hlt hpos
      rwa [Nat.add_zero, Nat.mod_eq_of_lt h.ring.get_lt, ← hget] at this
    refine ⟨hget, hm.trans (Function.update_of_ne hne _ _).symm, ?_⟩
    change 0 < (s.queue.cnt + 1) % 2 ^ 8
    omega

theorem bufferEmptied (h8 : numbuf < 2 ^ 8) (h : s.Lent numbuf) {b n : ℕ} (hb : s.reader = some (b, n)) :
    ∃ queue, s.queue.bufferEmptied numbuf = .ok queue ∧
      Lent numbuf { s with queue := queue, reader := none, taken := s.taken ++ [(s.queue.buf b, n)] } := by
  obtain ⟨rfl, rfl, hpos⟩ := h.reader b n hb
  rw [BufferQueue.bufferEmptied, not_empty hpos]
  refine ⟨_, rfl, ?_, ?_, ?_, by simp⟩
  · change RingPos numbuf s.queue.put (BufferQueue.wrap numbuf s.queue.get) (s.queue.cnt - 1)
    rw [wrap_eq h8 h.ring.get_lt]
    exact h.ring.pop hpos
  · change s.filled = s.taken ++ _ ++ ringContents numbuf (fun i => (s.queue.buf i, s.queue.bufSize i))
      (BufferQueue.wrap numbuf s.queue.get) (s.queue.cnt - 1)
    rw [wrap_eq h8 h.ring.get_lt, h.history, BufferQueue.readable, ringContents_pop h.ring hpos,
      List.append_assoc, List.singleton_append]
  · intro c hc
    obtain ⟨hput, hlt⟩ := h.writer c hc
    exact ⟨hput, (Nat.sub_le _ _).trans_lt hlt⟩

/-- **One call.** -/
theorem step (h2 : 0 < numbuf) (h8 : numbuf < 2 ^ 8) (h : s.Lent numbuf) (e : BufferEvent β) :
    s.step numbuf e = .error .notLent ∨ ∃ s', s.step numbuf e = .ok s' ∧ s'.Lent numbuf := by
  cases e with
  | tryGetWritableBuffer =>
    refine .inr ?_
    rw [BufferSystem.step]
    cases hb : s.queue.tryGetWritableBuffer numbuf with
    | none => exact ⟨s, rfl, h⟩
    | some b => exact ⟨_, rfl, h.getWritable hb⟩
  | write x =>
    rw [BufferSystem.step]
    cases hb : s.writer with
    | none => exact .inl rfl
    | some b => exact .inr ⟨_, rfl, hb ▸ h.write hb x⟩
  | bufferFilled n =>
    rw [BufferSystem.step]
    cases hb : s.writer with
    | none => exact .inl rfl
    | some b =>
      obtain ⟨queue, hrun, hlent⟩ := h.bufferFilled h8 hb n
      exact .inr ⟨_, by simp only [hrun]; rfl, hlent⟩
  | tryGetReadableBuffer =>
    refine .inr ?_
    rw [BufferSystem.step]
    cases hb : s.queue.tryGetReadableBuffer with
    | none => exact ⟨s, rfl, h⟩
    | some p => exact ⟨_, rfl, h.getReadable hb⟩
  | bufferEmptied =>
    rw [BufferSystem.step]
    cases hb : s.reader with
    | none => exact .inl rfl
    | some p =>
      obtain ⟨queue, hrun, hlent⟩ := h.bufferEmptied h8 hb
      exact .inr ⟨_, by simp only [hrun]; rfl, hlent⟩
  | reset => exact .inr ⟨_, rfl, RingPos.empty h2, rfl, by simp, by simp⟩

/-- **Every sequence of calls.** -/
theorem run (h2 : 0 < numbuf) (h8 : numbuf < 2 ^ 8) (h : s.Lent numbuf) (events : List (BufferEvent β)) :
    s.run numbuf events = .error .notLent ∨ ∃ s', s.run numbuf events = .ok s' ∧ s'.Lent numbuf := by
  induction events generalizing s with
  | nil => exact .inr ⟨s, rfl, h⟩
  | cons e events ih =>
    rw [BufferSystem.run]
    rcases h.step h2 h8 e with hstep | ⟨s', hstep, hs'⟩
    · exact .inl (by rw [hstep]; rfl)
    · rw [hstep]
      exact ih hs'

/-- The writer's buffer holds nothing that can be read, and the reader has another one. -/
theorem apart (h : s.Lent numbuf) {b : ℕ} (hb : s.writer = some b) :
    b < numbuf ∧ b ∉ s.queue.readablePositions numbuf ∧ ∀ c n, s.reader = some (c, n) → b ≠ c := by
  obtain ⟨rfl, hlt⟩ := h.writer b hb
  refine ⟨h.ring.put_lt, fun hmem => ?_, ?_⟩
  · obtain ⟨i, hi, heq⟩ := List.mem_map.1 hmem
    exact h.ring.put_ne hlt (List.mem_range.1 hi) heq
  · rintro c n hc heq
    obtain ⟨rfl, -, hpos⟩ := h.reader c n hc
    have hne := h.ring.put_ne hlt hpos
    rw [Nat.add_zero, Nat.mod_eq_of_lt h.ring.get_lt] at hne
    exact hne heq.symm

/-- The reader has the oldest buffer. -/
theorem head (h : s.Lent numbuf) {b n : ℕ} (hb : s.reader = some (b, n)) :
    (s.queue.readable numbuf).head? = some (s.queue.buf b, n) := by
  obtain ⟨rfl, rfl, hpos⟩ := h.reader b n hb
  rw [BufferQueue.readable, ringContents_pop h.ring hpos]
  rfl

end Lent

/-- What the callers rely on. -/
structure IsFifo (numbuf : ℕ) (s : BufferSystem β) : Prop where
  /-- What was filled is what was taken and what can be read, in order and with the sizes. -/
  fifo : s.filled = s.taken ++ s.queue.readable numbuf
  head : ∀ b n, s.reader = some (b, n) → (s.queue.readable numbuf).head? = some (s.queue.buf b, n)
  apart : ∀ b, s.writer = some b →
    b < numbuf ∧ b ∉ s.queue.readablePositions numbuf ∧ ∀ c n, s.reader = some (c, n) → b ≠ c
  count : (s.queue.readable numbuf).length = s.queue.cnt ∧ s.queue.cnt ≤ numbuf
  positions : s.queue.get < numbuf ∧ s.queue.put = (s.queue.get + s.queue.cnt) % numbuf
  full : s.queue.tryGetWritableBuffer numbuf = none ↔ (s.queue.readable numbuf).length = numbuf
  empty : s.queue.tryGetReadableBuffer = none ↔ s.queue.readable numbuf = []

theorem Lent.isFifo (h : s.Lent numbuf) : s.IsFifo numbuf where
  fifo := h.history
  head _ _ hb := h.head hb
  apart _ hb := h.apart hb
  count := ⟨length_ringContents _, h.ring.count⟩
  positions := ⟨h.ring.get_lt, h.ring.put_eq⟩
  full := by
    rw [BufferQueue.readable, length_ringContents]
    simp [BufferQueue.tryGetWritableBuffer, BufferQueue.isFull]
  empty := by
    rw [← List.length_eq_zero_iff, BufferQueue.readable, length_ringContents]
    simp [BufferQueue.tryGetReadableBuffer, BufferQueue.isEmpty]

end BufferSystem

/-- **The queues are bounded FIFOs.** Whatever the order of the calls of a writer and a reader that give back
only what they were lent, no call of `BufferQueue` ends in `errorHandler`, what is read is what was filled, in
order and with its size, and the writer's buffer is never one that can be read or that the reader has. The
answers of `DynUnsyncQueue` to every sequence of calls are those of a bounded queue. In both the count agrees with
the positions. -/
theorem queues_are_fifos :
    (∀ numbuf, 2 ≤ numbuf → numbuf < 2 ^ 8 → ∀ (buf : ℕ → β) (bufSize : ℕ → ℕ) (events : List (BufferEvent β)),
      (BufferSystem.init buf bufSize).run numbuf events ≠ .error .unexpected ∧
        ∀ s, (BufferSystem.init buf bufSize).run numbuf events = .ok s → s.IsFifo numbuf) ∧
    ∀ elem, 1 ≤ elem → elem < 2 ^ 32 → ∀ (data : ℕ → α) (ops : List (FifoOp α)),
      replies DynUnsyncQueue.step (.new data elem) ops = replies (fifoStep elem) [] ops ∧
        DynUnsyncQueue.Represents elem (stateAfter DynUnsyncQueue.step (.new data elem) ops)
          (stateAfter (fifoStep elem) [] ops) := by
  refine ⟨fun numbuf h2 h8 buf bufSize events => ?_, fun elem h1 h32 data ops => ?_⟩
  · rcases (BufferSystem.init_lent (by omega) buf bufSize).run (by omega) h8 events with hrun | ⟨s, hrun, hs⟩
    · rw [hrun]
      exact ⟨by simp, by simp⟩
    · rw [hrun]
      refine ⟨by simp, fun s' hs' => ?_⟩
      obtain rfl := Except.ok.inj hs'
      exact hs.isFifo
  · have hsim := DynUnsyncQueue.simulates_fifo (α := α) h1 h32
    have hnew := DynUnsyncQueue.new_represents h1 data
    exact ⟨hsim.replies_eq hnew ops, hsim.stateAfter hnew ops⟩

/-- Double buffering: the writer has the second buffer while the reader has the first. A queue of one element
refuses a second one. -/
theorem queues_are_fifos_double_buffering :
    (∃ s : BufferSystem ℕ, (BufferSystem.init (fun _ => 0) fun _ => 0).run 2 [.tryGetWritableBuffer, .write 7,
        .bufferFilled 3, .tryGetReadableBuffer, .tryGetWritableBuffer, .write 8] = .ok s ∧
      s.writer = some 1 ∧ s.reader = some (0, 3) ∧ s.filled = [(7, 3)] ∧ s.IsFifo 2) ∧
    replies DynUnsyncQueue.step (.new (fun _ => 0) 1) [.put 7, .put 8, .get, .get] =
      replies (fifoStep 1) ([] : List ℕ) [.put 7, .put 8, .get, .get] := by
  obtain ⟨hbuffers, hqueue⟩ := queues_are_fifos (α := ℕ) (β := ℕ)
  refine ⟨?_, (hqueue 1 le_rfl (by decide) (fun _ => 0) _).1⟩
  obtain ⟨s, hrun, hw, hr, hf⟩ : ∃ s : BufferSystem ℕ, (BufferSystem.init (fun _ => 0) fun _ => 0).run 2
      [.tryGetWritableBuffer, .write 7, .bufferFilled 3, .tryGetReadableBuffer, .tryGetWritableBuffer, .write 8] =
        .ok s ∧ s.writer = some 1 ∧ s.reader = some (0, 3) ∧ s.filled = [(7, 3)] := ⟨_, rfl, rfl, rfl, rfl⟩
  exact ⟨s, hrun, hw, hr, hf, (hbuffers 2 le_rfl (by decide) _ _ _).2 s hrun⟩

end Miosix
