/-
**Spinlocks and the interrupt flag (`spinlock.c`, `pushcli` and `popcli` of `percpu.c`).**

The functions are straight-line code of atomic operations, which the CPUs interleave. A CPU executes
one activity at a time: when its interrupt flag is set, an interrupt handler may suspend the activity,
and `iret` resumes it. The lock word is four bytes wide, as `xchg` and `movl` access it; `is_locked`
is its low byte.

* `Op.exec` — one operation;
* `pushcli`, `popcli`, `acquireSpinlock`, `releaseSpinlock`, `holdingSpinlock` — the code;
* `LockStep` — the machine.
-/

import Mathlib.Logic.Function.Basic
import ShipOS.Memory.Layout

namespace ShipOS

variable {Lk C : Type*}

/-! ### Operations -/

/-- The operations of the five functions. -/
inductive Op (Lk : Type*)
  /-- `eflags = read_eflags()`. -/
  | readFlags
  | cli
  /-- `if (cpu->ncli == 0) cpu->intena = eflags & FL_IF`. -/
  | save
  /-- `cpu->ncli++`. -/
  | inc
  /-- `if (read_eflags() & FL_IF) panic(…)`. -/
  | testIf
  /-- `--cpu->ncli`. -/
  | dec
  /-- `if (… < 0) panic(…)`. -/
  | testNeg
  /-- `if (cpu->ncli == 0 && cpu->intena) sti()`. -/
  | restore
  /-- `while (xchg(&lk->is_locked, 1) != 0)`. -/
  | xchg (l : Lk)
  /-- `r = lock->is_locked`. -/
  | load (l : Lk)
  /-- `if (!holding_spinlock(lk)) panic(…)`, after the call. -/
  | check
  /-- `movl $0, lk->is_locked`. -/
  | unlock (l : Lk)

def pushcli : List (Op Lk) := [.readFlags, .cli, .save, .inc]

def popcli : List (Op Lk) := [.testIf, .dec, .testNeg, .restore]

def acquireSpinlock (l : Lk) : List (Op Lk) := pushcli ++ [.xchg l]

def holdingSpinlock (l : Lk) : List (Op Lk) := pushcli ++ ([.load l] ++ popcli)

def releaseSpinlock (l : Lk) : List (Op Lk) := holdingSpinlock l ++ ([.check, .unlock l] ++ popcli)

/-- IF, and the fields `ncli` and `intena` of `struct percpu`. -/
structure Flags where
  ifl : Bool
  ncli : BitVec 32
  intena : Bool

/-- The local variables of an activity, and what it has: the locks it took, the number of its own
`pushcli` calls without a `popcli`, and IF before its last outermost `pushcli`. -/
structure Activity (Lk : Type*) where
  eflags : Bool
  r : BitVec 8
  holds : List Lk
  pushes : Nat
  before : Bool

/-- An activity and the code it has still to execute. -/
structure Frame (Lk : Type*) where
  code : List (Op Lk)
  vars : Activity Lk

variable [DecidableEq Lk]

/-- One operation: the lock words, flags and variables after it, and whether the activity goes on to
its next operation. -/
def Op.exec (word : Lk → BitVec 32) (f : Flags) (a : Activity Lk) :
    Op Lk → Except Halt ((Lk → BitVec 32) × Flags × Activity Lk × Bool)
  | .readFlags => .ok (word, f, { a with eflags := f.ifl }, true)
  | .cli => .ok (word, { f with ifl := false }, a, true)
  | .save => .ok (word, if f.ncli = 0 then { f with intena := a.eflags } else f, a, true)
  | .inc => .ok (word, { f with ncli := f.ncli + 1 }, a, true)
  | .testIf =>
    if f.ifl then .error (.panic "popcli with interrupts enabled") else .ok (word, f, a, true)
  | .dec => .ok (word, { f with ncli := f.ncli - 1 }, a, true)
  | .testNeg => if f.ncli.toInt < 0 then .error (.panic "unbalanced popcli") else .ok (word, f, a, true)
  | .restore =>
    .ok (word, if f.ncli = 0 ∧ f.intena then { f with ifl := true } else f, a, true)
  | .xchg l =>
    -- The word is exchanged in any case; the lock is taken when it was free.
    if word l = 0 then .ok (Function.update word l 1, f, { a with holds := l :: a.holds }, true)
    else .ok (Function.update word l 1, f, a, false)
  | .load l => .ok (word, f, { a with r := (word l).setWidth 8 }, true)
  | .check => if a.r = 0 then .error (.panic "release_spinlock") else .ok (word, f, a, true)
  | .unlock l => .ok (Function.update word l 0, f, { a with holds := a.holds.erase l }, true)

/-! ### The machine -/

/-- A CPU: its flags, the activity it executes and those that interrupts have suspended. -/
structure Cpu (Lk : Type*) where
  flags : Flags
  active : Frame Lk
  suspended : List (Frame Lk)

structure Smp (C Lk : Type*) where
  word : Lk → BitVec 32
  cpus : C → Cpu Lk

inductive LockCall (Lk : Type*)
  | pushcli
  | popcli
  | acquire (l : Lk)
  | release (l : Lk)
  | holding (l : Lk)

def LockCall.code : LockCall Lk → List (Op Lk)
  | .pushcli => ShipOS.pushcli
  | .popcli => ShipOS.popcli
  | .acquire l => acquireSpinlock l
  | .release l => releaseSpinlock l
  | .holding l => holdingSpinlock l

/-- A lock is released by its holder, and a `popcli` has its `pushcli`. -/
def LockCall.Allowed (a : Activity Lk) : LockCall Lk → Prop
  | .release l => l ∈ a.holds
  | .popcli => 0 < a.pushes
  | _ => True

/-- The own `pushcli` calls after a call. -/
def LockCall.pushes (n : Nat) : LockCall Lk → Nat
  | .pushcli => n + 1
  | .popcli => n - 1
  | _ => n

/-- A call; before an outermost `pushcli` IF is remembered. -/
def LockCall.start (call : LockCall Lk) (f : Flags) (a : Activity Lk) : Frame Lk where
  code := call.code
  vars := { a with pushes := call.pushes a.pushes, before := if f.ncli = 0 then f.ifl else a.before }

/-- The activity is not in a call, and has no lock and no `pushcli` left. -/
def Frame.Outside (frame : Frame Lk) : Prop :=
  frame.code = [] ∧ frame.vars.holds = [] ∧ frame.vars.pushes = 0

/-- What an interrupt handler starts with. -/
def handlerFrame : Frame Lk := ⟨[], ⟨false, 0, [], 0, false⟩⟩

inductive LockEvent (C Lk : Type*)
  | call (c : C) (call : LockCall Lk)
  | op (c : C)
  | interrupt (c : C)
  | iret (c : C)
  | setIf (c : C) (value : Bool)

variable [DecidableEq C]

/-- The machine with CPU `c` replaced. -/
def Smp.set (g : Smp C Lk) (c : C) (cpu : Cpu Lk) : Smp C Lk :=
  { g with cpus := Function.update g.cpus c cpu }

/-- One step of a CPU: a call, an operation, an interrupt when IF is set, the return of a handler that
has released what it took, or `cli` or `sti` outside of all calls. -/
inductive LockStep : Smp C Lk → LockEvent C Lk → Smp C Lk → Prop
  | call {g : Smp C Lk} {c : C} {call : LockCall Lk} (ready : (g.cpus c).active.code = [])
      (allowed : call.Allowed (g.cpus c).active.vars) :
      LockStep g (.call c call) (g.set c { g.cpus c with
        active := call.start (g.cpus c).flags (g.cpus c).active.vars })
  | op {g : Smp C Lk} {c : C} {op : Op Lk} {rest : List (Op Lk)} {word : Lk → BitVec 32} {f : Flags}
      {a : Activity Lk} {next : Bool} (here : (g.cpus c).active.code = op :: rest)
      (done : op.exec g.word (g.cpus c).flags (g.cpus c).active.vars = .ok (word, f, a, next)) :
      LockStep g (.op c) { g.set c { g.cpus c with
        flags := f, active := ⟨if next then rest else op :: rest, a⟩ } with word := word }
  | interrupt {g : Smp C Lk} {c : C} (enabled : (g.cpus c).flags.ifl = true) :
      LockStep g (.interrupt c) (g.set c ⟨{ (g.cpus c).flags with ifl := false }, handlerFrame,
        (g.cpus c).active :: (g.cpus c).suspended⟩)
  | iret {g : Smp C Lk} {c : C} {frame : Frame Lk} {rest : List (Frame Lk)}
      (outside : (g.cpus c).active.Outside) (below : (g.cpus c).suspended = frame :: rest) :
      LockStep g (.iret c) (g.set c ⟨{ (g.cpus c).flags with ifl := true }, frame, rest⟩)
  | setIf {g : Smp C Lk} {c : C} {value : Bool} (outside : (g.cpus c).active.Outside) :
      LockStep g (.setIf c value) (g.set c { g.cpus c with
        flags := { (g.cpus c).flags with ifl := value } })

/-- An activity of CPU `c`, executing or suspended, has the lock. -/
def Holds (g : Smp C Lk) (c : C) (l : Lk) : Prop :=
  ∃ frame ∈ (g.cpus c).active :: (g.cpus c).suspended, l ∈ frame.vars.holds

end ShipOS
