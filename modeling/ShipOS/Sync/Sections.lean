/-
**Functions with critical sections, on all CPUs at once.**

A function is the list of its lock calls and of the lines it outputs to serial ports, in the order of
its code (`Stmt`). A CPU calls functions one after another; an interrupt suspends the function and
calls another one, any number of times. The lock calls are those of the spinlock machine, operation by
operation, and a line is output character by character, so that everything interleaves.

A script is `Nested` when it takes locks in the order of their ranks only, outputs a line only under
the lock of its port, and ends without a lock.

* `Keeps` — the rules for parts of scripts;
* `Steps`, `settled` — what a call has still to count and to take, from the code that is left of it;
* `SectionInv.step` — the invariant, kept by every step: no overflow of `ncli` has to be assumed;
* `SectionInv.advance` — a CPU with something left to do can go on, unless it spins for a lock;
* `SectionInv.completes` — **no deadlock**: every reachable state has a run to its end.
-/

import ShipOS.Lib.ByteMem
import ShipOS.Lib.Runs
import ShipOS.Sync.LockSafety

namespace ShipOS

open ByteMem Runs Progress

variable {Lk P C Fn : Type*}

/-! ### Scripts -/

/-- What a function does with locks and serial ports. -/
inductive Stmt (Lk P : Type*)
  | acquire (l : Lk)
  | release (l : Lk)
  /-- The characters between the lock calls of one `serial_printf`. -/
  | line (port : P) (text : List Byte)

/-- A function under way: what is left of the line it outputs, and what it does then. -/
structure Task (Lk P : Type*) where
  line : Option (P × List Byte)
  todo : List (Stmt Lk P)

/-- The function a CPU executes, and those that interrupts have suspended. -/
structure Tasks (Lk P : Type*) where
  active : Task Lk P
  suspended : List (Task Lk P)

/-- The lock machine, the functions, and what has been sent to each port. -/
structure Kernel (C Lk P : Type*) where
  smp : Smp C Lk
  tasks : C → Tasks Lk P
  wire : P → List Byte

inductive SectionEvent (C Fn P : Type*)
  /-- A thread calls a function. -/
  | enter (c : C) (fn : Fn)
  /-- The next lock call of the function. -/
  | call (c : C)
  | op (c : C)
  | start (c : C) (port : P) (text : List Byte)
  | send (c : C)
  | sent (c : C)
  /-- An interrupt, with the function its handler executes. -/
  | interrupt (c : C) (fn : Fn)
  | iret (c : C)
  | setIf (c : C) (value : Bool)

/-- The CPU goes on with what it was doing: no new function, no interrupt, no `cli` or `sti`. -/
def SectionEvent.GoesOn : SectionEvent C Fn P → Prop
  | .call _ | .op _ | .start _ _ _ | .send _ | .sent _ | .iret _ => True
  | _ => False

variable [DecidableEq Lk] [DecidableEq C]

omit [DecidableEq Lk] in
theorem Smp.set_own (g : Smp C Lk) (c : C) (cpu : Cpu Lk) : (g.set c cpu).cpus c = cpu :=
  Function.update_self ..

/-- The kernel with the functions of CPU `c` replaced. -/
def Kernel.set (k : Kernel C Lk P) (c : C) (tasks : Tasks Lk P) : Kernel C Lk P :=
  { k with tasks := Function.update k.tasks c tasks }

/-- CPU `c` goes on with `task`. -/
def Kernel.go (k : Kernel C Lk P) (c : C) (task : Task Lk P) : Kernel C Lk P :=
  k.set c { k.tasks c with active := task }

inductive SectionStep [DecidableEq P] (script : Fn → List (Stmt Lk P)) :
    Kernel C Lk P → SectionEvent C Fn P → Kernel C Lk P → Prop
  | enter {k : Kernel C Lk P} {c : C} {fn : Fn} (ready : (k.smp.cpus c).active.code = [])
      (finished : (k.tasks c).active = ⟨none, []⟩) :
      SectionStep script k (.enter c fn) (k.go c ⟨none, script fn⟩)
  | acquire {k : Kernel C Lk P} {c : C} {l : Lk} {rest : List (Stmt Lk P)} {smp : Smp C Lk}
      (here : (k.tasks c).active = ⟨none, .acquire l :: rest⟩)
      (called : LockStep k.smp (.call c (.acquire l)) smp) :
      SectionStep script k (.call c) { k.go c ⟨none, rest⟩ with smp := smp }
  | release {k : Kernel C Lk P} {c : C} {l : Lk} {rest : List (Stmt Lk P)} {smp : Smp C Lk}
      (here : (k.tasks c).active = ⟨none, .release l :: rest⟩)
      (called : LockStep k.smp (.call c (.release l)) smp) :
      SectionStep script k (.call c) { k.go c ⟨none, rest⟩ with smp := smp }
  | op {k : Kernel C Lk P} {c : C} {smp : Smp C Lk} (moved : LockStep k.smp (.op c) smp) :
      SectionStep script k (.op c) { k with smp := smp }
  | start {k : Kernel C Lk P} {c : C} {port : P} {text : List Byte} {rest : List (Stmt Lk P)}
      (here : (k.tasks c).active = ⟨none, .line port text :: rest⟩)
      (ready : (k.smp.cpus c).active.code = []) :
      SectionStep script k (.start c port text) (k.go c ⟨some (port, text), rest⟩)
  | send {k : Kernel C Lk P} {c : C} {port : P} {b : Byte} {text : List Byte}
      {rest : List (Stmt Lk P)} (here : (k.tasks c).active = ⟨some (port, b :: text), rest⟩) :
      SectionStep script k (.send c) { k.go c ⟨some (port, text), rest⟩ with
        wire := Function.update k.wire port (k.wire port ++ [b]) }
  | sent {k : Kernel C Lk P} {c : C} {port : P} {rest : List (Stmt Lk P)}
      (here : (k.tasks c).active = ⟨some (port, []), rest⟩) :
      SectionStep script k (.sent c) (k.go c ⟨none, rest⟩)
  | interrupt {k : Kernel C Lk P} {c : C} {fn : Fn} {smp : Smp C Lk}
      (taken : LockStep k.smp (.interrupt c) smp) :
      SectionStep script k (.interrupt c fn) { k.set c ⟨⟨none, script fn⟩,
        (k.tasks c).active :: (k.tasks c).suspended⟩ with smp := smp }
  | iret {k : Kernel C Lk P} {c : C} {task : Task Lk P} {rest : List (Task Lk P)} {smp : Smp C Lk}
      (finished : (k.tasks c).active = ⟨none, []⟩) (below : (k.tasks c).suspended = task :: rest)
      (returned : LockStep k.smp (.iret c) smp) :
      SectionStep script k (.iret c) { k.set c ⟨task, rest⟩ with smp := smp }
  | setIf {k : Kernel C Lk P} {c : C} {value : Bool} {smp : Smp C Lk}
      (moved : LockStep k.smp (.setIf c value) smp) :
      SectionStep script k (.setIf c value) { k with smp := smp }

/-- The order of the locks, the lock of each port and the lines that a port may be sent. -/
structure Discipline (Lk P : Type*) where
  rank : Lk → Nat
  guard : P → Lk
  allows : P → List Byte → Prop

/-- Locks are taken in the order of their ranks, a line is output under the lock of its port, and no
lock is left. -/
def Nested (d : Discipline Lk P) : List Lk → List (Stmt Lk P) → Prop
  | held, [] => held = []
  | held, .acquire l :: rest => (∀ k ∈ held, d.rank k < d.rank l) ∧ Nested d (l :: held) rest
  | held, .release l :: rest => l ∈ held ∧ Nested d (held.erase l) rest
  | held, .line p text :: rest => d.guard p ∈ held ∧ d.allows p text ∧ Nested d held rest

/-- A part of a script that leaves the locks as it finds them. -/
def Keeps (d : Discipline Lk P) (held : List Lk) (part : List (Stmt Lk P)) : Prop :=
  ∀ rest, Nested d held rest → Nested d held (part ++ rest)

/-- `acquire_spinlock(l); body; release_spinlock(l);`. -/
def guarded (l : Lk) (body : List (Stmt Lk P)) : List (Stmt Lk P) :=
  .acquire l :: (body ++ [.release l])

variable {d : Discipline Lk P} {held : List Lk}

theorem Keeps.nil : Keeps d held [] := fun _ nested => nested

theorem Keeps.append {first second : List (Stmt Lk P)} (one : Keeps d held first)
    (two : Keeps d held second) : Keeps d held (first ++ second) := by
  intro rest nested
  rw [List.append_assoc]
  exact one _ (two _ nested)

theorem Keeps.flatMap {A : Type*} {f : A → List (Stmt Lk P)} {xs : List A}
    (each : ∀ x ∈ xs, Keeps d held (f x)) : Keeps d held (xs.flatMap f) := by
  induction xs with
  | nil => exact .nil
  | cons x xs ih =>
    obtain ⟨here, later⟩ := List.forall_mem_cons.mp each
    rw [List.flatMap_cons]
    exact here.append (ih later)

theorem Keeps.line {p : P} {text : List Byte} (mine : d.guard p ∈ held) (allows : d.allows p text) :
    Keeps d held [.line p text] := fun _ nested => ⟨mine, allows, nested⟩

theorem Keeps.guarded {l : Lk} {body : List (Stmt Lk P)} (above : ∀ k ∈ held, d.rank k < d.rank l)
    (inside : Keeps d (l :: held) body) : Keeps d held (guarded l body) := by
  intro rest nested
  refine ⟨above, ?_⟩
  show Nested d (l :: held) (body ++ [.release l] ++ rest)
  rw [List.append_assoc]
  refine inside _ ⟨List.mem_cons_self, ?_⟩
  rwa [List.erase_cons_head]

theorem Keeps.nested {part : List (Stmt Lk P)} (keeps : Keeps d [] part) :
    Nested d [] part := by
  have nested := keeps [] rfl
  rwa [List.append_nil] at nested

/-! ### The code that is left of a call -/

/-- The locks after an operation. -/
def Op.locks (held : List Lk) : Op Lk → List Lk
  | .xchg l => l :: held
  | .unlock l => held.erase l
  | _ => held

/-- `ncli` after an operation. -/
def Op.depth (n : Nat) : Op Lk → Nat
  | .inc => n + 1
  | .dec => n - 1
  | _ => n

/-- `ncli` stays in the range of an `int`, and the lock ranks above those that are held. -/
def Op.Fit (rank : Lk → Nat) (n : Nat) (held : List Lk) : Op Lk → Prop
  | .inc => n + 1 < 2 ^ 31
  | .dec => 0 < n
  | .xchg l => ∀ k ∈ held, rank k < rank l
  | _ => True

/-- Every operation of the code fits when it is executed. -/
def Steps (rank : Lk → Nat) : Nat → List Lk → List (Op Lk) → Prop
  | _, _, [] => True
  | n, held, op :: rest => op.Fit rank n held ∧ Steps rank (op.depth n) (op.locks held) rest

/-- The locks of an activity when its call has returned. -/
def settled (frame : Frame Lk) : List Lk := frame.code.foldl Op.locks frame.vars.holds

variable {word word' : Lk → BitVec 32} {f f' : Flags} {a a' : Activity Lk} {op : Op Lk}

/-- An operation that goes on changes locks and `ncli` as counted. -/
theorem exec_counts {rank : Lk → Nat} (fit : op.Fit rank f.ncli.toNat a.holds)
    (done : op.exec word f a = .ok (word', f', a', true)) :
    a'.holds = op.locks a.holds ∧ f'.ncli.toNat = op.depth f.ncli.toNat ∧ a'.pushes = a.pushes := by
  cases op with
  | readFlags | cli | restore | load | unlock | save =>
    cases done
    refine ⟨rfl, ?_, rfl⟩
    first | rfl | (show BitVec.toNat (ite _ _ _ : Flags).ncli = _; split <;> rfl)
  | inc =>
    cases done
    have room : f.ncli.toNat + 1 < 2 ^ 31 := fit
    refine ⟨rfl, ?_, rfl⟩
    show (f.ncli + 1).toNat = f.ncli.toNat + 1
    bv_omega
  | dec =>
    cases done
    have positive : 0 < f.ncli.toNat := fit
    refine ⟨rfl, ?_, rfl⟩
    show (f.ncli - 1).toNat = f.ncli.toNat - 1
    bv_omega
  | testIf | testNeg | check =>
    rw [Op.exec] at done
    split at done
    · cases done
    · cases done
      exact ⟨rfl, rfl, rfl⟩
  | xchg l =>
    rw [Op.exec] at done
    split at done
    · cases done
      exact ⟨rfl, rfl, rfl⟩
    · cases done

/-- An operation that does not go on is an exchange of a lock that is taken. -/
theorem exec_spins (done : op.exec word f a = .ok (word', f', a', false)) :
    ∃ l, op = .xchg l ∧ word l ≠ 0 ∧ word' = Function.update word l 1 ∧ f' = f ∧ a' = a := by
  cases op with
  | readFlags | cli | save | inc | dec | restore | load | unlock => cases done
  | testIf | testNeg | check =>
    rw [Op.exec] at done
    split at done
    · cases done
    · cases done
  | xchg l =>
    rw [Op.exec] at done
    split at done
    case isTrue => cases done
    case isFalse taken =>
      cases done
      exact ⟨l, rfl, taken, rfl, rfl, rfl⟩

/-- A lock that is taken after an operation was taken before, or is the activity's now. -/
theorem exec_owned {next : Bool} (done : op.exec word f a = .ok (word', f', a', next)) {k : Lk}
    (taken : word' k ≠ 0) : word k ≠ 0 ∧ (k ∈ a.holds → k ∈ a'.holds) ∨ k ∈ a'.holds := by
  cases next with
  | false =>
    obtain ⟨l, -, busy, rfl, -, rfl⟩ := exec_spins done
    refine .inl ⟨?_, id⟩
    by_cases same : k = l
    · exact same ▸ busy
    · rwa [Function.update_of_ne same] at taken
  | true =>
    rcases exec_locks done with ⟨words, holds, -⟩ | ⟨l, -, words, holds, -⟩ | ⟨_, _, _, _, off⟩ |
      ⟨l, -, words, holds, -⟩
    · exact .inl ⟨words ▸ taken, holds ▸ id⟩
    · by_cases same : k = l
      · exact .inr (by rw [holds, same]; exact List.mem_cons_self)
      · rw [words, Function.update_of_ne same] at taken
        exact .inl ⟨taken, fun old => holds ▸ List.mem_cons_of_mem l old⟩
    · cases off
    · by_cases same : k = l
      · rw [words, same, Function.update_self] at taken
        exact absurd rfl taken
      · rw [words, Function.update_of_ne same] at taken
        exact .inl ⟨taken, fun old => holds ▸ (List.mem_erase_of_ne same).mpr old⟩

/-! ### The invariant -/

/-- A function and the activity that executes it, where `ncli` is `n`. -/
structure Placed (d : Discipline Lk P) (n : Nat) (frame : Frame Lk)
    (task : Task Lk P) : Prop where
  steps : Steps d.rank n frame.vars.holds frame.code
  own : frame.vars.pushes = 0
  nested : Nested d (settled frame) task.todo
  line : ∀ p text, task.line = some (p, text) → frame.code = [] ∧ d.guard p ∈ frame.vars.holds

/-- The functions of one CPU. -/
structure CpuPlaced (d : Discipline Lk P) (cpu : Cpu Lk) (tasks : Tasks Lk P) :
    Prop where
  active : Placed d cpu.flags.ncli.toNat cpu.active tasks.active
  suspended : List.Forall₂ (Placed d 0) cpu.suspended tasks.suspended

/-- **The invariant.** -/
structure SectionInv (d : Discipline Lk P) (k : Kernel C Lk P) : Prop where
  locks : LockInv k.smp
  placed : ∀ c, CpuPlaced d (k.smp.cpus c) (k.tasks c)
  owned : ∀ l, k.smp.word l ≠ 0 → ∃ c, l ∈ (k.smp.cpus c).active.vars.holds

/-- Before the first function: all locks are initialised and free. -/
structure KernelFresh (k : Kernel C Lk P) : Prop where
  locks : LockFresh k.smp
  free : ∀ l, k.smp.word l = 0
  idle : ∀ c, k.tasks c = ⟨⟨none, []⟩, []⟩

variable {k k' : Kernel C Lk P} {c : C}

theorem placed_script {frame : Frame Lk} {todo : List (Stmt Lk P)} {n : Nat}
    (outside : frame.Outside) (nested : Nested d [] todo) :
    Placed d n frame ⟨none, todo⟩ := by
  obtain ⟨code, holds, pushes⟩ := outside
  refine ⟨?_, pushes, ?_, fun p text sending => by cases sending⟩
  · rw [code]
    trivial
  · rw [settled, code, holds]
    exact nested

omit [DecidableEq C] in
theorem KernelFresh.inv (fresh : KernelFresh k) : SectionInv d k where
  locks := fresh.locks.inv
  placed c := by
    rw [fresh.idle c]
    refine ⟨placed_script (fresh.locks.outside c) rfl, ?_⟩
    rw [fresh.locks.alone c]
    exact .nil
  owned l taken := absurd (fresh.free l) taken

omit [DecidableEq C] in
/-- Between two calls `ncli` counts the locks. -/
theorem SectionInv.count (inv : SectionInv d k)
    (ready : (k.smp.cpus c).active.code = []) :
    (k.smp.cpus c).flags.ncli.toNat = (k.smp.cpus c).active.vars.holds.length := by
  have fine := (inv.locks.cpu c).active
  rw [ready] at fine
  have count := (fine.done interference_refl).count
  dsimp only at count
  rw [count, (inv.placed c).active.own, Nat.add_zero]

omit [DecidableEq C] in
/-- A function that is done has no lock. -/
theorem SectionInv.outside (inv : SectionInv d k)
    (ready : (k.smp.cpus c).active.code = []) (finished : (k.tasks c).active = ⟨none, []⟩) :
    (k.smp.cpus c).active.Outside := by
  have nested := (inv.placed c).active.nested
  rw [finished, settled, ready] at nested
  exact ⟨ready, nested, (inv.placed c).active.own⟩

/-- A step of CPU `c`. -/
theorem SectionInv.replace (inv : SectionInv d k) {cpu : Cpu Lk} {tasks : Tasks Lk P}
    {word : Lk → BitVec 32} {wire : P → List Byte}
    (locks : LockInv { k.smp.set c cpu with word := word }) (ok : CpuPlaced d cpu tasks)
    (owned : ∀ l, word l ≠ 0 → k.smp.word l ≠ 0 ∧
      (l ∈ (k.smp.cpus c).active.vars.holds → l ∈ cpu.active.vars.holds) ∨
        l ∈ cpu.active.vars.holds) :
    SectionInv d
      ⟨{ k.smp.set c cpu with word := word }, Function.update k.tasks c tasks, wire⟩ := by
  refine ⟨locks, fun x => ?_, fun l taken => ?_⟩
  · show CpuPlaced d (Function.update k.smp.cpus c cpu x)
      (Function.update k.tasks c tasks x)
    by_cases own : x = c
    · rw [own, Function.update_self, Function.update_self]
      exact ok
    · rw [Function.update_of_ne own, Function.update_of_ne own]
      exact inv.placed x
  · show ∃ x, l ∈ (Function.update k.smp.cpus c cpu x).active.vars.holds
    have mine : l ∈ cpu.active.vars.holds →
        ∃ x, l ∈ (Function.update k.smp.cpus c cpu x).active.vars.holds := fun member =>
      ⟨c, by rwa [Function.update_self]⟩
    rcases owned l taken with ⟨before, kept⟩ | now
    · obtain ⟨x, holder⟩ := inv.owned l before
      by_cases own : x = c
      · exact mine (kept (own ▸ holder))
      · exact ⟨x, by rwa [Function.update_of_ne own]⟩
    · exact mine now

/-- A step that leaves the lock machine alone. -/
theorem SectionInv.retask (inv : SectionInv d k) {task : Task Lk P}
    {wire : P → List Byte}
    (ok : Placed d (k.smp.cpus c).flags.ncli.toNat (k.smp.cpus c).active task) :
    SectionInv d { k.go c task with wire := wire } := by
  refine ⟨inv.locks, fun x => ?_, inv.owned⟩
  show CpuPlaced d (k.smp.cpus x) (Function.update k.tasks c _ x)
  by_cases own : x = c
  · rw [own, Function.update_self]
    exact ⟨ok, (inv.placed c).suspended⟩
  · rw [Function.update_of_ne own]
    exact inv.placed x

/-- A lock call, where the function's script allows it. -/
theorem placed_call {frame : Frame Lk} {flags : Flags} {call : LockCall Lk}
    {rest : List (Stmt Lk P)} (own : call.pushes frame.vars.pushes = 0)
    (steps : Steps d.rank flags.ncli.toNat frame.vars.holds call.code)
    (nested : Nested d (call.code.foldl Op.locks frame.vars.holds) rest) :
    Placed d flags.ncli.toNat (call.start flags frame.vars) ⟨none, rest⟩ :=
  ⟨steps, own, nested, fun p text sending => by cases sending⟩

/-- An operation keeps the place of its function. -/
theorem Placed.exec {rest : List (Op Lk)} {next : Bool} {task : Task Lk P}
    (placed : Placed d f.ncli.toNat ⟨op :: rest, a⟩ task)
    (done : op.exec word f a = .ok (word', f', a', next)) :
    Placed d f'.ncli.toNat ⟨if next then rest else op :: rest, a'⟩ task := by
  obtain ⟨fit, later⟩ := placed.steps
  have idle : ∀ p text, task.line ≠ some (p, text) := fun p text sending => by
    cases (placed.line p text sending).1
  cases next with
  | false =>
    obtain ⟨l, -, -, -, rfl, rfl⟩ := exec_spins done
    exact placed
  | true =>
    obtain ⟨holds, depth, pushes⟩ := exec_counts fit done
    refine ⟨?_, pushes.trans placed.own, ?_, fun p text sending => absurd sending (idle p text)⟩
    · show Steps d.rank f'.ncli.toNat a'.holds rest
      rw [holds, depth]
      exact later
    · show Nested d (rest.foldl Op.locks a'.holds) task.todo
      rw [holds]
      exact placed.nested

/-- **Every step keeps the invariant.** -/
theorem SectionInv.step [DecidableEq P] [Fintype Lk] {script : Fn → List (Stmt Lk P)}
    {event : SectionEvent C Fn P} (few : Fintype.card Lk + 1 < 2 ^ 31)
    (scripts : ∀ fn, Nested d [] (script fn)) (inv : SectionInv d k)
    (step : SectionStep script k event k') : SectionInv d k' := by
  cases step with
  | @enter c fn ready finished =>
    exact inv.retask (placed_script (inv.outside ready finished) (scripts fn))
  | @acquire c l rest smp here called =>
    have locks := inv.locks.step (show Fits _ (.call c (.acquire l)) from trivial) called
    have placed := (inv.placed c).active
    cases called with
    | call ready allowed =>
      have nested := placed.nested
      rw [here, settled, ready] at nested
      have short := (inv.locks.cpu c).nodup.length_le_card
      refine inv.replace locks ⟨placed_call placed.own ?_ nested.2, (inv.placed c).suspended⟩
        fun l taken => .inl ⟨taken, id⟩
      have room : (k.smp.cpus c).flags.ncli.toNat + 1 < 2 ^ 31 := by
        rw [inv.count ready]
        omega
      exact ⟨trivial, trivial, trivial, room, nested.1, trivial⟩
  | @release c l rest smp here called =>
    have locks := inv.locks.step (show Fits _ (.call c (.release l)) from trivial) called
    have placed := (inv.placed c).active
    cases called with
    | call ready allowed =>
      have nested := placed.nested
      rw [here, settled, ready] at nested
      have short := (inv.locks.cpu c).nodup.length_le_card
      have positive := List.length_pos_of_mem nested.1
      refine inv.replace locks ⟨placed_call placed.own ?_ nested.2, (inv.placed c).suspended⟩
        fun l taken => .inl ⟨taken, id⟩
      have count := inv.count ready
      have room : (k.smp.cpus c).flags.ncli.toNat + 1 < 2 ^ 31 := by omega
      have deep : 0 < (k.smp.cpus c).flags.ncli.toNat := count ▸ positive
      exact ⟨trivial, trivial, trivial, room, trivial, trivial, Nat.succ_pos _, trivial, trivial,
        trivial, trivial, trivial, deep, trivial, trivial, trivial⟩
  | @op c smp moved =>
    have placed := inv.placed c
    have fits : Fits k.smp (.op c) := by
      intro head
      have steps := placed.active.steps
      rcases code : (k.smp.cpus c).active.code with _ | ⟨op, rest⟩
      · rw [code] at head
        cases head
      · rw [code] at head steps
        rw [Option.some.inj head] at steps
        exact steps.1
    have locks := inv.locks.step fits moved
    cases moved with
    | @op _ op rest word f a next here done =>
      have active : Placed d (k.smp.cpus c).flags.ncli.toNat
          ⟨op :: rest, (k.smp.cpus c).active.vars⟩ (k.tasks c).active := here ▸ placed.active
      have replaced : SectionInv d ⟨_, Function.update k.tasks c (k.tasks c), k.wire⟩ :=
        inv.replace locks ⟨active.exec done, placed.suspended⟩ fun l taken => exec_owned done taken
      rwa [Function.update_eq_self] at replaced
  | @start c port text rest here ready =>
    have placed := (inv.placed c).active
    have nested := placed.nested
    rw [here, settled, ready] at nested
    refine inv.retask ⟨placed.steps, placed.own, ?_, fun p line sending => ?_⟩
    · rw [settled, ready]
      exact nested.2.2
    · cases sending
      exact ⟨ready, nested.1⟩
  | @send c port b text rest here =>
    have placed := (inv.placed c).active
    rw [here] at placed
    refine inv.retask ⟨placed.steps, placed.own, placed.nested, fun p line sending => ?_⟩
    cases sending
    exact placed.line port (b :: text) rfl
  | @sent c port rest here =>
    have placed := (inv.placed c).active
    rw [here] at placed
    exact inv.retask ⟨placed.steps, placed.own, placed.nested, fun p line sending => by cases sending⟩
  | @interrupt c fn smp taken =>
    have locks := inv.locks.step (show Fits _ (.interrupt c) from trivial) taken
    cases taken with
    | interrupt enabled =>
      obtain ⟨top, noLocks⟩ := (inv.locks.cpu c).alone enabled
      have placed := inv.placed c
      have active := placed.active
      rw [top] at active
      refine inv.replace locks ⟨placed_script ⟨rfl, rfl, rfl⟩ (scripts fn),
        .cons active placed.suspended⟩ fun l taken => .inl ⟨taken, fun old => ?_⟩
      rw [noLocks] at old
      cases old
  | @iret c task rest smp finished below returned =>
    have locks := inv.locks.step (show Fits _ (.iret c) from trivial) returned
    cases returned with
    | @iret _ frame frames outside under =>
      have suspended := (inv.placed c).suspended
      rw [below, under] at suspended
      obtain ⟨first, others⟩ := List.forall₂_cons.mp suspended
      have top := (inv.locks.cpu c).outside_top outside
      refine inv.replace locks ⟨?_, others⟩ fun l taken => .inl ⟨taken, fun old => ?_⟩
      · show Placed d (k.smp.cpus c).flags.ncli.toNat frame task
        rw [top]
        exact first
      · rw [outside.2.1] at old
        cases old
  | @setIf c value smp moved =>
    have locks := inv.locks.step (show Fits _ (.setIf c value) from trivial) moved
    cases moved with
    | setIf outside =>
      have placed := inv.placed c
      have replaced : SectionInv d ⟨_, Function.update k.tasks c (k.tasks c), k.wire⟩ :=
        inv.replace locks ⟨placed.active, placed.suspended⟩ fun l taken => .inl ⟨taken, id⟩
      rwa [Function.update_eq_self] at replaced

/-! ### Progress -/

/-- The steps that a statement takes, at most. -/
def Stmt.cost : Stmt Lk P → Nat
  | .acquire l => (acquireSpinlock l).length + 1
  | .release l => (releaseSpinlock l).length + 1
  | .line _ text => text.length + 2

def Task.left (task : Task Lk P) : Nat :=
  task.line.elim 0 (·.2.length + 1) + (task.todo.map Stmt.cost).sum

/-- The steps that a CPU has still to take, without those in which it spins. -/
def stepsLeft (cpu : Cpu Lk) (tasks : Tasks Lk P) : Nat :=
  cpu.active.code.length + (cpu.suspended.map fun frame => frame.code.length + 1).sum +
    tasks.active.left + (tasks.suspended.map Task.left).sum

/-- The CPU has nothing left to do. -/
def Kernel.Finished (k : Kernel C Lk P) (c : C) : Prop :=
  (k.smp.cpus c).active.code = [] ∧ (k.tasks c).active = ⟨none, []⟩ ∧ (k.smp.cpus c).suspended = []

/-- The lock that a CPU spins for. -/
def Kernel.waits (k : Kernel C Lk P) (c : C) : Option Lk :=
  match (k.smp.cpus c).active.code with
  | .xchg l :: _ => if k.smp.word l = 0 then none else some l
  | _ => none

omit [DecidableEq Lk] [DecidableEq C] in
theorem waits_some {l : Lk} (waits : k.waits c = some l) :
    k.smp.word l ≠ 0 ∧ ∃ rest, (k.smp.cpus c).active.code = .xchg l :: rest := by
  unfold Kernel.waits at waits
  split at waits
  case h_1 l' rest code =>
    split at waits
    case isTrue => cases waits
    case isFalse taken =>
      cases waits
      exact ⟨taken, rest, code⟩
  case h_2 => cases waits

omit [DecidableEq C] in
/-- An operation of a CPU that does not spin goes on. -/
theorem SectionInv.exec_on (inv : SectionInv d k) {rest : List (Op Lk)}
    (here : (k.smp.cpus c).active.code = op :: rest) (free : k.waits c = none) :
    ∃ word f a, op.exec k.smp.word (k.smp.cpus c).flags (k.smp.cpus c).active.vars =
      .ok (word, f, a, true) := by
  obtain ⟨⟨word, f, a, next⟩, done⟩ := inv.locks.no_panic here
  cases next with
  | true => exact ⟨word, f, a, done⟩
  | false =>
    obtain ⟨l, rfl, taken, -⟩ := exec_spins done
    rw [Kernel.waits, here] at free
    have spins : (if k.smp.word l = 0 then none else some l) = none := free
    rw [if_neg taken] at spins
    cases spins

section Completion

variable [DecidableEq P] {script : Fn → List (Stmt Lk P)}

/-- A step of CPU `c` with less left to do. -/
def Advance (script : Fn → List (Stmt Lk P)) (k : Kernel C Lk P) (c : C) : Prop :=
  ∃ e smp tasks wire, e.GoesOn ∧
    SectionStep script k e ⟨smp, Function.update k.tasks c tasks, wire⟩ ∧
    (∀ x, x ≠ c → smp.cpus x = k.smp.cpus x) ∧
    stepsLeft (smp.cpus c) tasks < stepsLeft (k.smp.cpus c) (k.tasks c)

/-- A function goes on without a lock operation. -/
theorem advance_task {e : SectionEvent C Fn P} {task : Task Lk P} {wire : P → List Byte}
    (step : SectionStep script k e { k.go c task with wire := wire }) (own : e.GoesOn)
    (less : task.left < (k.tasks c).active.left) : Advance script k c := by
  refine ⟨e, k.smp, _, wire, own, step, fun x _ => rfl, ?_⟩
  simp only [stepsLeft]
  omega

/-- A function makes a lock call. -/
theorem advance_call {call : LockCall Lk} {stmt : Stmt Lk P} {rest : List (Stmt Lk P)}
    {smp : Smp C Lk} (here : (k.tasks c).active = ⟨none, stmt :: rest⟩)
    (cost : stmt.cost = call.code.length + 1) (called : LockStep k.smp (.call c call) smp)
    (step : SectionStep script k (.call c) { k.go c ⟨none, rest⟩ with smp := smp }) :
    Advance script k c := by
  cases called with
  | call ready allowed =>
    refine ⟨.call c, _, _, _, trivial, step, fun x other => Function.update_of_ne other .., ?_⟩
    rw [Smp.set_own]
    simp only [stepsLeft, here, Task.left, ready, LockCall.start, List.map_cons, List.sum_cons,
      cost, Option.elim_none, List.length_nil]
    omega

/-- **A CPU with something left to do can go on, unless it spins for a lock.** -/
theorem SectionInv.advance (script : Fn → List (Stmt Lk P)) (inv : SectionInv d k)
    (busy : ¬ k.Finished c) (free : k.waits c = none) : Advance script k c := by
  have placed := inv.placed c
  rcases code : (k.smp.cpus c).active.code with _ | ⟨op, rest⟩
  · have nested := placed.active.nested
    rw [settled, code] at nested
    rcases here : (k.tasks c).active with ⟨_ | ⟨port, _ | ⟨b, text⟩⟩, todo⟩
    · rw [here] at nested
      rcases todo with _ | ⟨stmt, rest⟩
      · -- The function is done, and the CPU is not: a handler returns.
        rcases under : (k.smp.cpus c).suspended with _ | ⟨frame, frames⟩
        · exact absurd ⟨code, here, under⟩ busy
        · have suspended := placed.suspended
          rw [under] at suspended
          obtain ⟨task, tasks, first, -, below⟩ := List.forall₂_cons_left_iff.mp suspended
          refine ⟨.iret c, _, ⟨task, tasks⟩, k.wire, trivial,
            .iret here below (.iret (inv.outside code here) under),
            fun x other => Function.update_of_ne other .., ?_⟩
          rw [Smp.set_own]
          simp only [stepsLeft, here, code, under, below, List.map_cons, List.sum_cons, Task.left,
            List.length_nil, Option.elim_none, List.map_nil, List.sum_nil]
          omega
      · cases stmt with
        | acquire l =>
          have called : LockStep k.smp (.call c (.acquire l)) _ := .call code trivial
          exact advance_call here rfl called (.acquire here called)
        | release l =>
          have called : LockStep k.smp (.call c (.release l)) _ := .call code nested.1
          exact advance_call here rfl called (.release here called)
        | line port text =>
          have step : SectionStep script k (.start c port text) _ := .start here code
          refine advance_task step trivial ?_
          simp only [here, Task.left, List.map_cons, List.sum_cons, Stmt.cost, Option.elim_none,
            Option.elim_some]
          omega
    · have step : SectionStep script k (.sent c) _ := .sent here
      refine advance_task step trivial ?_
      simp [here, Task.left]
    · have step : SectionStep script k (.send c) _ := .send here
      refine advance_task step trivial ?_
      simp [here, Task.left]
  · obtain ⟨word, f, a, done⟩ := inv.exec_on code free
    have step : SectionStep script k (.op c) _ := .op (.op code done)
    refine ⟨.op c, _, k.tasks c, k.wire, trivial, by rwa [Function.update_eq_self],
      fun x other => Function.update_of_ne other .., ?_⟩
    show stepsLeft ((k.smp.set c _).cpus c) _ < _
    rw [Smp.set_own]
    simp only [stepsLeft, code, if_true, List.length_cons]
    omega

omit [DecidableEq P] [DecidableEq C] in
/-- A CPU that has a lock is not finished. -/
theorem SectionInv.holder_busy (inv : SectionInv d k) {l : Lk}
    (holds : l ∈ (k.smp.cpus c).active.vars.holds) : ¬ k.Finished c := by
  intro ⟨code, done, _⟩
  rw [(inv.outside code done).2.1] at holds
  cases holds

/-- **Some CPU can go on**, whatever the others wait for. -/
theorem SectionInv.progress [Fintype C] (inv : SectionInv d k) (busy : ¬ ∀ c, k.Finished c) :
    ∃ e k', e.GoesOn ∧ SectionStep script k e k' ∧
      ∑ c, stepsLeft (k'.smp.cpus c) (k'.tasks c) < ∑ c, stepsLeft (k.smp.cpus c) (k.tasks c) := by
  obtain ⟨c, unfinished⟩ := not_forall.mp busy
  obtain ⟨c', free, behind⟩ := exists_unblocked k.waits
    (fun c l => l ∈ (k.smp.cpus c).active.vars.holds) d.rank
    (fun x l waiting => inv.owned l (waits_some waiting).1)
    (fun x l m waiting has => by
      obtain ⟨-, rest, code⟩ := waits_some waiting
      have steps := (inv.placed x).active.steps
      rw [code] at steps
      exact steps.1 m has) c
  have busy' : ¬ k.Finished c' := by
    rcases behind with rfl | ⟨l, holds⟩
    · exact unfinished
    · exact inv.holder_busy holds
  obtain ⟨e, smp, tasks, wire, own, step, others, less⟩ := inv.advance script busy' free
  refine ⟨e, _, own, step, sum_lt_of_one c' ?_ fun x other => ?_⟩
  · dsimp only
    rwa [Function.update_self]
  · dsimp only
    rw [Function.update_of_ne other, others x other]

/-- **No deadlock.** From every state that satisfies the invariant the CPUs can finish all they are
doing, with no new function and no interrupt; then every lock is free. -/
theorem SectionInv.completes [Fintype Lk] [Fintype C] (few : Fintype.card Lk + 1 < 2 ^ 31)
    (scripts : ∀ fn, Nested d [] (script fn)) (inv : SectionInv d k) :
    ∃ es k', (∀ e ∈ es, e.GoesOn) ∧ Run (SectionStep script) k es k' ∧ (∀ c, k'.Finished c) ∧
      ∀ l, k'.smp.word l = 0 := by
  obtain ⟨es, k', own, run, last, done⟩ := Progress.completes
    (SectionInv d) (fun k => ∀ c, k.Finished c)
    (fun _ _ _ inv step => inv.step few scripts step) (fun _ inv busy => inv.progress busy) k inv
  refine ⟨es, k', own, run, done, fun l => ?_⟩
  by_contra taken
  obtain ⟨c, holds⟩ := last.owned l taken
  exact last.holder_busy holds (done c)

end Completion

end ShipOS
