import Mathlib.Algebra.Group.Int.Defs
import Mathlib.Data.Int.Order.Basic
import Mathlib.Order.Lattice
import Mathlib.Order.OrderDual

/-!
# Priorities

The kernel is built with one of three schedulers, and each has its own priorities.

* `SchedulerPriority`: what the kernel does with a priority;
* `mutexLessOp`: the comparison for priority inheritance.
-/

namespace Miosix

/-- The priority of a thread. `mutexLessOp` compares what a priority counts for in inheritance, and `less`
is the operator `<`, which decides about preemption. -/
class SchedulerPriority (P : Type) where
  Level : Type
  order : LinearOrder Level
  level : P → Level
  decEq : DecidableEq P
  less : P → P → Bool
  validate : P → Bool

attribute [reducible, instance] SchedulerPriority.order SchedulerPriority.decEq

open SchedulerPriority

def mutexLessOp {P : Type} [SchedulerPriority P] (a b : P) : Bool := level a < level b

structure PrioritySchedulerPriority where
  priority : ℤ
deriving DecidableEq

structure EDFSchedulerPriority where
  deadline : ℤ
deriving DecidableEq

structure ControlSchedulerPriority where
  priority : ℤ
  realtime : ℤ
deriving DecidableEq

instance : SchedulerPriority PrioritySchedulerPriority where
  Level := ℤ
  order := inferInstance
  level p := p.priority
  decEq := inferInstance
  less a b := a.priority < b.priority
  validate p := 0 ≤ p.priority && p.priority < 4

/-- The thread with the lower deadline has the higher priority. -/
instance : SchedulerPriority EDFSchedulerPriority where
  Level := ℤᵒᵈ
  order := inferInstance
  level p := OrderDual.toDual p.deadline
  decEq := inferInstance
  less a b := b.deadline < a.deadline
  validate p := 0 ≤ p.deadline && p.deadline != 2 ^ 63 - 2

/-- There is no priority inheritance: `mutexLessOp` is always false. -/
instance : SchedulerPriority ControlSchedulerPriority where
  Level := Unit
  order := inferInstance
  level _ := ()
  decEq := inferInstance
  less a b := a.priority == -1 || a.realtime != 1 && b.realtime == 1
  validate p := 0 ≤ p.priority && p.priority < 64 && 1 ≤ p.realtime && p.realtime ≤ 3

end Miosix
