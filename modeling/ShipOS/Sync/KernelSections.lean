/-
**The kernel's own critical sections.**

The locks of the kernel, and its functions that take them, as scripts: `sched_lock` around the changes
of the run queues, which log while they have it; `pid_lock` and `proc_lock`; `printf_spinlock`, with
`print_spinlock` taken anew for every string; and one lock for each serial port. What a function logs
is arbitrary, with directives that fit the interpreter's buffer (`Message`).

* `kernelScript_nested` — every function takes locks in one order: `sched_lock` and `printf_spinlock`
  before `print_spinlock` and the locks of the ports;
* `kernel_no_deadlock` — functions on any number of CPUs, interrupted by handlers that take the same
  locks, can always be finished;
* `serial_lines_whole` — each port is sent whole lines, and each is what one `serial_printf` outputs.
-/

import Mathlib.Data.Fintype.Sigma
import Mathlib.Data.Fintype.Sum
import Mathlib.Tactic.DeriveFintype
import ShipOS.Serial.Lines
import ShipOS.Tty.Printf

namespace ShipOS

open ByteMem Runs

/-! ### Locks and messages -/

inductive KernelLock
  | sched
  | pid
  | proc
  | printf
  | print
  | serial (index : Fin 4)
  deriving DecidableEq, Fintype

def KernelLock.rank : KernelLock → Nat
  | .print | .serial _ => 1
  | _ => 0

/-- The arguments of a call of an interpreter that reaches no fault. -/
structure Message where
  format : List Byte
  varargs : Nat → Word
  text : Word → List Byte
  fits : ∀ d ∈ directives format varargs, d.Fits

/-- The build, and the serial ports that are initialised. -/
structure Logging where
  /-- Built with `-DDEBUG`. -/
  debug : Bool
  ports : List (BitVec 16)
  defaultPort : BitVec 16
  atMost : ports.length ≤ 4

/-- The index of a port, of its lock too. -/
def Logging.index (env : Logging) (port : BitVec 16) : Option (Fin 4) :=
  (env.ports.finIdxOf? port).map (Fin.castLE env.atMost)

/-- What `serial_printf` passes to `serial_putchar`. -/
def Message.chars (m : Message) (env : Logging) (port : BitVec 16) : List Byte :=
  (ShipOS.serialPrintf env.ports port m.text m.format m.varargs).1

/-- The messages of one `LOG`: on the terminal, and on the serial port of a debug build. -/
structure LogMessage where
  tty : Message
  serial : Message

/-! ### Scripts -/

abbrev Script := List (Stmt KernelLock (Fin 4))

namespace Logging

variable (env : Logging)

def serialPrintf (port : BitVec 16) (m : Message) : Script :=
  match env.index port with
  | none => []
  | some index => guarded (.serial index) [.line index (m.chars env port)]

def logSerial (m : Message) : Script := env.serialPrintf env.defaultPort m

def print : Script := guarded .print []

/-- `printf`; its calls of `putchar` take no lock. -/
def printf (m : Message) : Script :=
  guarded .printf ((ShipOS.printf m.text m.format m.varargs).1.flatMap fun
    | .putchar _ => []
    | .print _ => print)

def log (m : LogMessage) : Script :=
  printf m.tty ++ if env.debug then env.logSerial m.serial else []

end Logging

/-- A key that `keyboard_handler` reads: after its log line, the terminal it switches to or the
scancode it prints. -/
inductive Key
  | setTty (scancode : Message) (tty : LogMessage)
  | other (scancode : Message) (shown : Message)

/-- The functions that take locks. -/
inductive KernelFn
  | serialPrintf (port : BitVec 16) (m : Message)
  | print
  | printf (m : Message)
  /-- `LOG`, as in `set_tty` and `procinit`. -/
  | log (m : LogMessage)
  | schedAddThread (added : Message)
  /-- `sched_remove_thread` logs if the thread is in a queue. -/
  | schedRemoveThread (removed : Option Message)
  /-- `sched_balance` of an unbalanced system logs if it migrates a thread. -/
  | schedBalance (migrated : Option Message)
  | schedExit (exited : Message)
  | allocproc
  | keyboardHandler (keys : List Key)
  | defaultHandler
  | timerInterrupt

def Key.script (env : Logging) : Key → Script
  | .setTty scancode tty => env.logSerial scancode ++ env.log tty
  | .other scancode shown => env.logSerial scancode ++ Logging.printf shown

def kernelScript (env : Logging) : KernelFn → Script
  | .serialPrintf port m => env.serialPrintf port m
  | .print => Logging.print
  | .printf m => Logging.printf m
  | .log m => env.log m
  | .schedAddThread added => guarded .sched (env.logSerial added)
  | .schedRemoveThread removed => guarded .sched (removed.elim [] env.logSerial)
  | .schedBalance migrated => guarded .sched (migrated.elim [] env.logSerial)
  | .schedExit exited => env.logSerial exited
  | .allocproc => guarded .pid [] ++ guarded .proc []
  | .keyboardHandler keys => keys.flatMap (Key.script env) ++ Logging.print
  | .defaultHandler => Logging.print
  | .timerInterrupt => []

/-! ### The order of the locks -/

section Order

variable (env : Logging) {held : List KernelLock}

/-- Nothing that is held ranks as high as the locks of `print` and of the ports. -/
def Low (held : List KernelLock) : Prop := ∀ k ∈ held, k.rank = 0

theorem low_nil : Low [] := List.forall_mem_nil _

theorem low_one {l : KernelLock} (low : l.rank = 0) : Low [l] := by
  intro k member
  rwa [List.mem_singleton.mp member]

/-- A line is what a `serial_printf` to its port outputs. -/
def kernelDiscipline : Discipline KernelLock (Fin 4) where
  rank := KernelLock.rank
  guard := .serial
  allows p text := ∃ port, ∃ m : Message, env.index port = some p ∧ text = m.chars env port

abbrev KernelKeeps (held : List KernelLock) (part : Script) : Prop :=
  Keeps (kernelDiscipline env) held part

variable {env} in
theorem Low.above (low : Low held) {l : KernelLock} (high : l.rank = 1) :
    ∀ k ∈ held, (kernelDiscipline env).rank k < (kernelDiscipline env).rank l := by
  intro k member
  show k.rank < l.rank
  rw [low k member, high]
  exact Nat.one_pos

theorem serialPrintf_keeps (low : Low held) (port : BitVec 16) (m : Message) :
    KernelKeeps env held (env.serialPrintf port m) := by
  unfold Logging.serialPrintf
  split
  · exact .nil
  case h_2 index found =>
    refine .guarded (low.above rfl) (.line List.mem_cons_self ⟨port, m, found, rfl⟩)

theorem print_keeps (low : Low held) : KernelKeeps env held Logging.print :=
  .guarded (low.above rfl) .nil

theorem printf_keeps (m : Message) : KernelKeeps env [] (Logging.printf m) := by
  refine .guarded (List.forall_mem_nil _) (.flatMap fun call _ => ?_)
  cases call with
  | putchar c => exact .nil
  | print string => exact print_keeps env (low_one rfl)

theorem log_keeps (m : LogMessage) : KernelKeeps env [] (env.log m) := by
  refine (printf_keeps env m.tty).append ?_
  split
  · exact serialPrintf_keeps env low_nil _ _
  · exact .nil

theorem sched_keeps (logged : Option Message) :
    KernelKeeps env [] (guarded .sched (logged.elim [] env.logSerial)) := by
  refine .guarded (List.forall_mem_nil _) ?_
  cases logged with
  | none => exact .nil
  | some m => exact serialPrintf_keeps env (low_one rfl) _ m

theorem key_keeps (key : Key) : KernelKeeps env [] (key.script env) := by
  cases key with
  | setTty scancode tty => exact (serialPrintf_keeps env low_nil _ _).append (log_keeps env tty)
  | other scancode shown => exact (serialPrintf_keeps env low_nil _ _).append (printf_keeps env shown)

/-- **Every function takes its locks in one order.** -/
theorem kernelScript_nested (fn : KernelFn) :
    Nested (kernelDiscipline env) [] (kernelScript env fn) := by
  refine Keeps.nested ?_
  cases fn with
  | serialPrintf port m => exact serialPrintf_keeps env low_nil port m
  | print | defaultHandler => exact print_keeps env low_nil
  | printf m => exact printf_keeps env m
  | log m => exact log_keeps env m
  | schedAddThread added => exact sched_keeps env (some added)
  | schedRemoveThread logged | schedBalance logged => exact sched_keeps env logged
  | schedExit exited => exact serialPrintf_keeps env low_nil _ exited
  | allocproc =>
    exact .append (.guarded (List.forall_mem_nil _) .nil) (.guarded (List.forall_mem_nil _) .nil)
  | keyboardHandler keys =>
    exact .append (.flatMap fun key _ => key_keeps env key) (print_keeps env low_nil)
  | timerInterrupt => exact .nil

end Order

/-! ### Whole runs -/

theorem card_kernelLock_lt : Fintype.card KernelLock + 1 < 2 ^ 31 := by decide

section Runs

variable {C : Type*} [DecidableEq C] {env : Logging} {k k' : Kernel C KernelLock (Fin 4)}
  {es : List (SectionEvent C KernelFn (Fin 4))}

theorem kernel_inv (fresh : KernelFresh k) (run : Run (SectionStep (kernelScript env)) k es k') :
    SectionInv (kernelDiscipline env) k' :=
  run.keeps _
    (fun _ _ _ inv step => inv.step card_kernelLock_lt (kernelScript_nested env) step) fresh.inv

/-- **No deadlock.** Whatever the CPUs have called and whichever interrupts they have taken, they can
finish all of it, with no further call and no further interrupt; then all locks are free. -/
theorem kernel_no_deadlock [Fintype C] (fresh : KernelFresh k)
    (run : Run (SectionStep (kernelScript env)) k es k') :
    ∃ fs k'', (∀ e ∈ fs, e.GoesOn) ∧ Run (SectionStep (kernelScript env)) k' fs k'' ∧
      (∀ c, k''.Finished c) ∧ ∀ l, k''.smp.word l = 0 :=
  (kernel_inv fresh run).completes card_kernelLock_lt (kernelScript_nested env)

/-- **Lines are whole.** A port is sent the lines that were started on it, one after the other, but for
the end of a last line that a CPU is sending; each is what one `serial_printf` outputs. -/
theorem serial_lines_whole (fresh : KernelFresh k)
    (run : Run (SectionStep (kernelScript env)) k es k') (p : Fin 4) :
    Sent k' p (k.wire p) (linesOn p es) ∧
      ∀ line ∈ linesOn p es, ∃ port, ∃ m : Message, env.index port = some p ∧
        line = m.chars env port := by
  have start : Sent k p (k.wire p) [] := by
    refine .inl ⟨fun c text sending => ?_, (List.append_nil _).symm⟩
    rw [fresh.idle c] at sending
    cases sending
  exact Sent.run card_kernelLock_lt (kernelScript_nested env) run fresh.inv start

end Runs

/-! ### Two CPUs -/

/-- `"."`: one character that is output as it is. -/
def dotMessage : Message where
  format := ascii "."
  varargs _ := 0
  text _ := []
  fits := by
    have parsed : nextDirective .ok ⟨ascii ".", fun _ => 0⟩ =
        .ok (.literal (chr '.'), ⟨[], fun _ => 0⟩) := rfl
    rw [directives, formatLoop_ok (by decide) parsed, formatLoop_end rfl]
    exact List.forall_mem_singleton.mpr trivial

/-- One port, in a debug build. -/
def com1 : Logging := ⟨true, [0x3F8], 0x3F8, by decide⟩

/-- Two CPUs before their first call. -/
def twoCpus : Kernel Bool KernelLock (Fin 4) :=
  ⟨⟨fun _ => 0, fun _ => ⟨⟨true, 0, false⟩, handlerFrame, []⟩⟩, fun _ => ⟨⟨none, []⟩, []⟩, fun _ => []⟩

theorem twoCpus_fresh : KernelFresh twoCpus :=
  ⟨⟨fun _ => ⟨rfl, rfl, rfl⟩, fun _ => rfl, fun _ => rfl⟩, fun _ => rfl, fun _ => rfl⟩

/-- One CPU has called `sched_add_thread`, and the other `LOG`. -/
def twoCalls : Kernel Bool KernelLock (Fin 4) :=
  (twoCpus.go false ⟨none, kernelScript com1 (.schedAddThread dotMessage)⟩).go true
    ⟨none, kernelScript com1 (.log ⟨dotMessage, dotMessage⟩)⟩

theorem twoCalls_run : Run (SectionStep (kernelScript com1)) twoCpus
    [.enter false (.schedAddThread dotMessage), .enter true (.log ⟨dotMessage, dotMessage⟩)] twoCalls :=
  .cons (.enter rfl rfl) (.cons (.enter rfl rfl) (.nil _))

theorem kernel_no_deadlock_twoCalls :
    ∃ es k, Run (SectionStep (kernelScript com1)) twoCalls es k ∧ ∀ c, k.Finished c := by
  obtain ⟨es, k, -, run, finished, -⟩ := kernel_no_deadlock twoCpus_fresh twoCalls_run
  exact ⟨es, k, run, finished⟩

/-- The two calls, run to their end. -/
theorem serial_lines_whole_twoCalls :
    ∃ es k, Run (SectionStep (kernelScript com1)) twoCpus es k ∧
      k.wire 0 = (linesOn 0 es).flatten := by
  obtain ⟨es, k, -, run, finished, -⟩ :=
    (kernel_inv twoCpus_fresh twoCalls_run).completes card_kernelLock_lt (kernelScript_nested com1)
  have whole := twoCalls_run.append run
  refine ⟨_, k, whole, ?_⟩
  rcases (serial_lines_whole twoCpus_fresh whole 0).1 with ⟨-, all⟩ | ⟨c, rest, _, _, sending, -⟩
  · exact all
  · rw [(finished c).2.1] at sending
    cases sending

end ShipOS
