/-
**The scheduler (`smp_sched.c`).**

Every CPU has a `percpu` record with its run queue; threads and queue nodes are pages of the
allocator, in the one physical memory. Each function is one atomic step, as `sched_lock` and the
per-CPU queues have it; the log lines do not appear, and `switch_context` is where a step ends.
-/

import Mathlib.Data.Fintype.Basic
import ShipOS.Sched.Threads

namespace ShipOS

open ByteMem Ring

/-- The fields of `struct percpu` that the scheduler reads. -/
structure PerCpu where
  currentThread : Word
  idleThread : Word
  runQueue : Word
  numThreads : BitVec 32
  started : Bool

/-- Physical memory and the records of CPUs `0` to `n`, so `ncpu` is `n + 1`. -/
structure Sched (n : Nat) where
  phys : Phys
  cpus : Fin (n + 1) → PerCpu

/-! ### Run queues -/

def runqueueAddUnlocked (cpu : PerCpu) (thread : Word) (s : Phys) : Except Halt (PerCpu × Phys) := do
  let (runQueue, s) ← pushThreadList cpu.runQueue thread s
  .ok ({ cpu with runQueue := runQueue, numThreads := cpu.numThreads + 1 }, s)

/-- A round through a run queue; the ring is never followed for longer than there are addresses. -/
def scanQueue (mem : Mem) (found : Word → Bool) (start : Word) : Except Halt (Option Word) :=
  match scan (nodeNext mem) found start ptrFuel start with
  | some node => .ok node
  | none => .error .diverges

def runqueueRemoveUnlocked (L : Layout) (cpu : PerCpu) (thread : Word) (s : Phys) :
    Except Halt (Bool × PerCpu × Phys) :=
  if cpu.runQueue = 0 then .ok (false, cpu, s)
  else do
    match ← scanQueue s.mem (fun node => nodeData s.mem node = thread) cpu.runQueue with
    | none => .ok (false, cpu, s)
    | some current =>
      let (runQueue, s) ← removeNode L cpu.runQueue current s
      .ok (true, { cpu with runQueue := runQueue, numThreads := cpu.numThreads - 1 }, s)

/-- `t->state == RUNNABLE` for the thread of a node. -/
def nodeRunnable (mem : Mem) (node : Word) : Bool :=
  threadState mem (nodeData mem node) = SchedState.runnable.raw

def runqueueGetNext (cpu : PerCpu) (mem : Mem) : Except Halt (Word × PerCpu) :=
  if cpu.runQueue = 0 then .ok (0, cpu)
  else do
    match ← scanQueue mem (nodeRunnable mem) cpu.runQueue with
    | none => .ok (0, cpu)
    | some current =>
      .ok (nodeData mem current, { cpu with runQueue := nodeNext mem current })

def schedGetNext (cpu : PerCpu) (mem : Mem) : Except Halt (Word × PerCpu) := do
  let (next, cpu) ← runqueueGetNext cpu mem
  if next ≠ 0 then .ok (next, cpu) else .ok (cpu.idleThread, cpu)

/-! ### Adding and removing threads -/

variable {n : Nat}

/-- The state with CPU `c`'s record and the memory replaced. -/
def Sched.set (s : Sched n) (c : Fin (n + 1)) (cpu : PerCpu) (phys : Phys) : Sched n where
  phys := phys
  cpus := Function.update s.cpus c cpu

@[simp] theorem Sched.set_phys (s : Sched n) (c : Fin (n + 1)) (cpu : PerCpu) (phys : Phys) :
    (s.set c cpu phys).phys = phys := rfl

@[simp] theorem Sched.set_self (s : Sched n) (c : Fin (n + 1)) (cpu : PerCpu) (phys : Phys) :
    (s.set c cpu phys).cpus c = cpu := Function.update_self ..

theorem Sched.set_ne (s : Sched n) {c d : Fin (n + 1)} (other : d ≠ c) (cpu : PerCpu)
    (phys : Phys) : (s.set c cpu phys).cpus d = s.cpus d := Function.update_of_ne other ..

@[simp] theorem Sched.set_same (s : Sched n) (c : Fin (n + 1)) : s.set c (s.cpus c) s.phys = s := by
  rw [Sched.set, Function.update_eq_self]

/-- The loop of `sched_find_least_loaded`, with `min_load` and `min_cpu`. -/
def leastLoadedStep (cpus : Fin (n + 1) → PerCpu) (best : BitVec 32 × Fin (n + 1))
    (i : Fin (n + 1)) : BitVec 32 × Fin (n + 1) :=
  if (cpus i).started ∧ (cpus i).numThreads < best.1 then ((cpus i).numThreads, i) else best

def schedFindLeastLoaded (cpus : Fin (n + 1) → PerCpu) : Fin (n + 1) :=
  ((List.finRange (n + 1)).foldl (leastLoadedStep cpus) (0xFFFFFFFF, 0)).2

/-- `thread->state = RUNNABLE; runqueue_add_unlocked(target_cpu, thread)`. -/
def addTo (target : Fin (n + 1)) (thread : Word) (s : Sched n) : Except Halt (Sched n) := do
  let mem := changeThreadState s.phys.mem thread .runnable
  let (cpu, phys) ← runqueueAddUnlocked (s.cpus target) thread { s.phys with mem := mem }
  .ok (s.set target cpu phys)

def schedAddThread (thread : Word) (cpuIndex : BitVec 32) (s : Sched n) : Except Halt (Sched n) :=
  if thread = 0 then .error (.panic "sched_add_thread: null thread")
  else if cpuIndex.toInt < 0 then addTo (schedFindLeastLoaded s.cpus) thread s
  else if valid : cpuIndex.toNat < n + 1 then addTo ⟨cpuIndex.toNat, valid⟩ thread s
  else .error (.panic "sched_add_thread: invalid cpu_index")

/-- `for (i = 0; i < ncpu; i++) if (runqueue_remove_unlocked(&percpus[i], thread)) break`. -/
def removeLoop (L : Layout) (thread : Word) : List (Fin (n + 1)) → Sched n → Except Halt (Sched n)
  | [], s => .ok s
  | i :: rest, s => do
    let (removed, cpu, phys) ← runqueueRemoveUnlocked L (s.cpus i) thread s.phys
    if removed then .ok (s.set i cpu phys) else removeLoop L thread rest (s.set i cpu phys)

def schedRemoveThread (L : Layout) (thread : Word) (s : Sched n) : Except Halt (Sched n) :=
  if thread = 0 then .ok s else removeLoop L thread (List.finRange (n + 1)) s

/-! ### Switching -/

/-- The body of the loop of `sched_run` up to the switch; the result is the thread switched to. -/
def schedDispatch (c : Fin (n + 1)) (s : Sched n) : Except Halt (Word × Sched n) := do
  let (next, cpu) ← schedGetNext (s.cpus c) s.phys.mem
  if next ≠ 0 then
    let mem := changeThreadState s.phys.mem next .onCpu
    .ok (next, s.set c { cpu with currentThread := next } { s.phys with mem := mem })
  else .ok (next, s.set c cpu s.phys)

/-- `sched_yield` up to the switch; the result says whether it switches. -/
def schedYield (c : Fin (n + 1)) (s : Sched n) : Bool × Sched n :=
  let cpu := s.cpus c
  let current := cpu.currentThread
  if current = 0 ∨ current = cpu.idleThread then (false, s)
  else (true, s.set c cpu { s.phys with mem := changeThreadState s.phys.mem current .runnable })

/-- `sched_exit` up to the switch; the result says whether it switches. -/
def schedExit (L : Layout) (c : Fin (n + 1)) (s : Sched n) : Except Halt (Bool × Sched n) :=
  let cpu := s.cpus c
  let current := cpu.currentThread
  if current = 0 ∨ current = cpu.idleThread then .ok (false, s)
  else do
    let mem := changeThreadState s.phys.mem current .exit
    let (_, cpu, phys) ← runqueueRemoveUnlocked L cpu current { s.phys with mem := mem }
    .ok (true, s.set c { cpu with currentThread := 0 } phys)

/-! ### Load balancing -/

/-- `max_load`, `min_load`, `max_cpu`, `min_cpu` of `sched_balance`. -/
structure Loads (n : Nat) where
  maxLoad : BitVec 32
  minLoad : BitVec 32
  maxCpu : Fin (n + 1)
  minCpu : Fin (n + 1)

def loadsStep (cpus : Fin (n + 1) → PerCpu) (loads : Loads n) (i : Fin (n + 1)) : Loads n :=
  if (cpus i).started then
    let load := (cpus i).numThreads
    let loads := if load > loads.maxLoad then { loads with maxLoad := load, maxCpu := i } else loads
    if load < loads.minLoad then { loads with minLoad := load, minCpu := i } else loads
  else loads

def findLoads (cpus : Fin (n + 1) → PerCpu) : Loads n :=
  (List.finRange (n + 1)).foldl (loadsStep cpus) ⟨0, 0xFFFFFFFF, 0, 0⟩

def loadBalanceThreshold : BitVec 32 := 2

/-- A node whose thread may move: neither the current nor the idle thread, and `RUNNABLE`. -/
def migratable (src : PerCpu) (mem : Mem) (node : Word) : Bool :=
  nodeData mem node ≠ src.currentThread ∧ nodeData mem node ≠ src.idleThread ∧ nodeRunnable mem node

/-- `runqueue_remove_unlocked(src, t); runqueue_add_unlocked(dst, t)`. -/
def migrate (L : Layout) (src dst : Fin (n + 1)) (thread : Word) (s : Sched n) :
    Except Halt (Sched n) := do
  let (_, cpu, phys) ← runqueueRemoveUnlocked L (s.cpus src) thread s.phys
  let s := s.set src cpu phys
  let (cpu, phys) ← runqueueAddUnlocked (s.cpus dst) thread s.phys
  .ok (s.set dst cpu phys)

def schedBalance (L : Layout) (s : Sched n) : Except Halt (Sched n) :=
  let loads := findLoads s.cpus
  if loads.maxLoad - loads.minLoad < loadBalanceThreshold then .ok s
  else
    let src := s.cpus loads.maxCpu
    if src.runQueue ≠ 0 ∧ src.numThreads > 1 then do
      match ← scanQueue s.phys.mem (migratable src s.phys.mem) src.runQueue with
      | none => .ok s
      | some node => migrate L loads.maxCpu loads.minCpu (nodeData s.phys.mem node) s
    else .ok s

end ShipOS
