import Mathlib.Data.Set.Card
import Mathlib.Logic.Function.Basic

/-!
# Reference counted pointers

An `intrusive_ref_ptr` points to an object that counts the pointers to it, and the pointer that brings the
count to zero deletes the object. An object can have such pointers among its fields, and its destructor
drops them.

* `Heap`: the objects and the pointers. What accesses an object or a pointer that is not there returns
  `none`;
* `deleteObject`, `release`, `reset`: a pointer lets go of its object;
* `Op`, `step`: what a program does with pointers;
* `Released`, `Dies`: what goes when a pointer lets go of its object;
* `Legal`, `Safe`: when an operation makes sense, and when it does not use what it deletes.
-/

namespace Miosix

/-- Where a pointer is: a variable, a field of an object, the parameter `r` of `atomic_store` and
`atomic_exchange`, or the pointer that `atomic_store` drops. -/
inductive RefPtr where
  | var (v : ℕ)
  | field (o i : ℕ)
  | argument
  | previous
deriving DecidableEq

/-- The objects and the pointers of a program. -/
structure RefHeap where
  /-- The object of each pointer, which can be null. -/
  object : RefPtr → Option (Option ℕ)
  referenceCount : ℕ → Option ℤ
  /-- How many pointers each object has among its fields. -/
  fields : ℕ → ℕ
  created : ℕ
  /-- The objects that were deleted, the newest first. -/
  deleted : List ℕ

namespace RefHeap

open RefPtr

/-- No object and no pointer. -/
def init : RefHeap := ⟨fun _ => none, fun _ => none, fun _ => 0, 0, []⟩

def setObject (s : RefHeap) (p : RefPtr) (x : Option ℕ) : Option RefHeap := do
  let _ ← s.object p
  some { s with object := Function.update s.object p (some x) }

def atomicAdd (s : RefHeap) (o : ℕ) (n : ℤ) : Option RefHeap := do
  let c ← s.referenceCount o
  some { s with referenceCount := Function.update s.referenceCount o (some (c + n)) }

def incrementRefCount (s : RefHeap) (p : RefPtr) : Option RefHeap := do
  match ← s.object p with
  | none => some s
  | some o => s.atomicAdd o 1

/-- Also tells if the object has to be deleted. -/
def decrementRefCount (s : RefHeap) (p : RefPtr) : Option (Bool × RefHeap) := do
  match ← s.object p with
  | none => some (false, s)
  | some o =>
    let c ← s.referenceCount o
    let s ← s.atomicAdd o (-1)
    some (decide (c = 1), s)

/-- `if(decrementRefCount()) delete object;` -/
def release (delete : RefHeap → ℕ → Option RefHeap) (s : RefHeap) (p : RefPtr) : Option RefHeap := do
  let (last, s) ← s.decrementRefCount p
  if last then
    match ← s.object p with
    | none => some s
    | some o => delete s o
  else some s

def resetWith (delete : RefHeap → ℕ → Option RefHeap) (s : RefHeap) (p : RefPtr) : Option RefHeap := do
  let s ← s.release delete p
  s.setObject p none

/-- The memory of an object and of its fields is no more. -/
def free (s : RefHeap) (o : ℕ) : RefHeap where
  object p :=
    match p with
    | .field o' i => if o' = o then none else s.object (field o' i)
    | p => s.object p
  referenceCount := Function.update s.referenceCount o none
  fields := s.fields
  created := s.created
  deleted := o :: s.deleted

/-- `delete object`: the fields are destroyed, the last one first. -/
def deleteObject : ℕ → RefHeap → ℕ → Option RefHeap
  | 0, _, _ => none
  | fuel + 1, s, o => do
    let s ← (List.range (s.fields o)).reverse.foldlM
      (fun s i => resetWith (deleteObject fuel) s (field o i)) s
    some (s.free o)

/-- A `delete` inside another is of another object. -/
def delete (s : RefHeap) (o : ℕ) : Option RefHeap := deleteObject s.created s o

def reset (s : RefHeap) (p : RefPtr) : Option RefHeap := s.resetWith delete p

/-- A new object. The memory of objects that were deleted is not used again. -/
def create (s : RefHeap) (n : ℕ) : RefHeap where
  object p :=
    match p with
    | .field o i => if o = s.created then (if i < n then some none else none) else s.object (field o i)
    | p => s.object p
  referenceCount := Function.update s.referenceCount s.created (some 0)
  fields := Function.update s.fields s.created n
  created := s.created + 1
  deleted := s.deleted

/-- `intrusive_ref_ptr()` -/
def construct (s : RefHeap) (p : RefPtr) : RefHeap :=
  { s with object := Function.update s.object p (some none) }

/-- `intrusive_ref_ptr(T *o)` -/
def constructRaw (s : RefHeap) (p : RefPtr) (o : Option ℕ) : Option RefHeap := do
  let s ← (s.construct p).setObject p o
  s.incrementRefCount p

/-- `intrusive_ref_ptr(const intrusive_ref_ptr& rhs)` -/
def copy (s : RefHeap) (p rhs : RefPtr) : Option RefHeap := do
  let o ← s.object rhs
  s.constructRaw p o

/-- `~intrusive_ref_ptr()` -/
def destroy (s : RefHeap) (p : RefPtr) : Option RefHeap := do
  let s ← s.reset p
  some { s with object := Function.update s.object p none }

/-- `operator=(const intrusive_ref_ptr& rhs)` -/
def assign (s : RefHeap) (p rhs : RefPtr) : Option RefHeap := do
  if (← s.object p) = (← s.object rhs) then some s
  else
    let s ← s.release delete p
    let o ← s.object rhs
    let s ← s.setObject p o
    s.incrementRefCount p

/-- `operator=(T *o)` -/
def assignRaw (s : RefHeap) (p : RefPtr) (o : Option ℕ) : Option RefHeap := do
  let s ← s.release delete p
  let s ← s.setObject p o
  s.incrementRefCount p

def swap (s : RefHeap) (p rhs : RefPtr) : Option RefHeap := do
  let o ← s.object p
  let o' ← s.object rhs
  some { s with object := Function.update (Function.update s.object p (some o')) rhs (some o) }

/-- `atomic_load()` const; what it returns is at `result`. -/
def atomicLoad (s : RefHeap) (p result : RefPtr) : Option RefHeap := do
  let s := s.construct result
  match ← s.object p with
  | none => some s
  | some o =>
    let s ← s.atomicAdd o 1
    s.setObject result (some o)

/-- `atomic_exchange(intrusive_ref_ptr& r)`; what it returns is at `result`. -/
def atomicExchange (s : RefHeap) (p r result : RefPtr) : Option RefHeap := do
  let temp ← s.object r
  let s ← match temp with
    | none => some s
    | some o => s.atomicAdd o 1
  let old ← s.object p
  let s ← s.setObject p temp
  (s.construct result).setObject result old

/-- `atomic_store(intrusive_ref_ptr *p, intrusive_ref_ptr r)` -/
def atomicStore (s : RefHeap) (p : Option RefPtr) (rhs : RefPtr) : Option RefHeap := do
  let s ← s.copy argument rhs
  let s ← match p with
    | none => some s
    | some p => do
      let s ← s.atomicExchange p argument previous
      s.destroy previous
  s.destroy argument

/-! ## Programs -/

/-- What a program does with pointers. A variable that an operation constructs is its first argument. -/
inductive Op where
  | create (n : ℕ)
  | construct (v : ℕ)
  | constructRaw (v : ℕ) (o : Option ℕ)
  | copy (v : ℕ) (rhs : RefPtr)
  | assign (p rhs : RefPtr)
  | assignRaw (p : RefPtr) (o : Option ℕ)
  | reset (p : RefPtr)
  | swap (p rhs : RefPtr)
  | destroy (v : ℕ)
  | atomicLoad (v : ℕ) (p : Option RefPtr)
  | atomicStore (p : Option RefPtr) (rhs : RefPtr)
  | atomicExchange (v : ℕ) (p : Option RefPtr) (rhs : RefPtr)

def step (s : RefHeap) : Op → Option RefHeap
  | .create n => some (s.create n)
  | .construct v => some (s.construct (var v))
  | .constructRaw v o => s.constructRaw (var v) o
  | .copy v rhs => s.copy (var v) rhs
  | .assign p rhs => s.assign p rhs
  | .assignRaw p o => s.assignRaw p o
  | .reset p => s.reset p
  | .swap p rhs => s.swap p rhs
  | .destroy v => s.destroy (var v)
  | .atomicLoad v none => some (s.construct (var v))
  | .atomicLoad v (some p) => s.atomicLoad p (var v)
  | .atomicStore p rhs => s.atomicStore p rhs
  | .atomicExchange v none rhs => do
    let s ← s.copy argument rhs
    (s.construct (var v)).destroy argument
  | .atomicExchange v (some p) rhs => do
    let s ← s.copy argument rhs
    let s ← s.atomicExchange p argument (var v)
    s.destroy argument

def run (s : RefHeap) : List Op → Option RefHeap
  | [] => some s
  | op :: ops => do run (← s.step op) ops

/-! ## What goes with a pointer -/

/-- The pointers that go when the pointer `p` lets go of its object: `p`, and the fields of an object all
the pointers to which go. -/
inductive Released (s : RefHeap) (p : RefPtr) : RefPtr → Prop
  | self : Released s p p
  | field {o i : ℕ} {q : RefPtr} : s.object q = some (some o) →
      (∀ q, s.object q = some (some o) → Released s p q) → Released s p (field o i)

/-- The object has pointers, and they all go with `p`. -/
def Dies (s : RefHeap) (p : RefPtr) (o : ℕ) : Prop :=
  (∃ q, s.object q = some (some o)) ∧ ∀ q, s.object q = some (some o) → Released s p q

/-- The pointer `q` is in no object that goes with `p`. -/
def Stays (s : RefHeap) (p q : RefPtr) : Prop := ∀ o i, q = field o i → ¬ Dies s p o

/-- A program uses variables and fields that there are, variables that are not there yet where it
constructs one, and raw pointers to objects that were not deleted. -/
def Legal (s : RefHeap) : Op → Prop
  | .create _ => True
  | .construct v => s.object (var v) = none
  | .constructRaw v o => s.object (var v) = none ∧ ∀ x ∈ o, s.referenceCount x ≠ none
  | .copy v rhs => s.object (var v) = none ∧ s.object rhs ≠ none
  | .assign p rhs => s.object p ≠ none ∧ s.object rhs ≠ none
  | .assignRaw p o => s.object p ≠ none ∧ ∀ x ∈ o, s.referenceCount x ≠ none
  | .reset p => s.object p ≠ none
  | .swap p rhs => s.object p ≠ none ∧ s.object rhs ≠ none
  | .destroy v => s.object (var v) ≠ none
  | .atomicLoad v p => s.object (var v) = none ∧ ∀ q ∈ p, s.object q ≠ none
  | .atomicStore p rhs => (∀ q ∈ p, s.object q ≠ none) ∧ s.object rhs ≠ none
  | .atomicExchange v p rhs =>
    s.object (var v) = none ∧ (∀ q ∈ p, s.object q ≠ none) ∧ s.object rhs ≠ none

/-- The pointer that an operation resets or assigns to is not in an object that goes with it. Nor is the
pointer that is assigned from, unless the two point to the same object, and a raw pointer does not point to
an object that goes. -/
def Safe (s : RefHeap) : Op → Prop
  | .assign p rhs => s.object p = s.object rhs ∨ s.Stays p p ∧ s.Stays p rhs
  | .assignRaw p o => s.Stays p p ∧ ∀ x ∈ o, ¬ s.Dies p x
  | .reset p => s.Stays p p
  | _ => True

end RefHeap

end Miosix
