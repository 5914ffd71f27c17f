/-
**Every thread is resumed as it left.**

Any number of CPUs execute threads, which compute on their own stacks and call `switch_context`. The
stacks and the words that hold the context pointers (`thread->context`, `cpu->scheduler_ctx`) are
pairwise apart, and nobody writes another thread's stack or a context pointer.

* `Suspended` — the state a thread that does not execute was left in, in memory; `Suspended.frame`;
* `SwitchInv.resume` — a switch into such a thread restores that state;
* `resume_of_run` — over whole runs, from threads that `create_thread` has built.
-/

import ShipOS.Lib.Runs
import ShipOS.Sched.Create

namespace ShipOS

open ByteMem Runs

variable {C T : Type*}

/-! ### Stacks -/

/-- Where the threads' context pointers and stacks are. -/
structure Areas (T : Type*) where
  /-- The address passed as `&old`. -/
  old : T → Word
  base : T → Word
  size : T → Nat
  small : ∀ i, size i ≤ 2 ^ 64
  apart : ∀ i j, i ≠ j → Apart (base i) (size i) (base j) (size j)
  oldApart : ∀ i j, i ≠ j → Apart (old i) 8 (old j) 8
  oldStack : ∀ i j, Apart (old i) 8 (base j) (size j)

/-- The stack pointer is in the thread's stack, with room for a context below it. -/
def Areas.Room (A : Areas T) (i : T) (rsp : Word) : Prop :=
  contextSize ≤ (rsp - A.base i).toNat ∧ (rsp - A.base i).toNat ≤ A.size i

/-- The part of the thread's stack above `rsp`. -/
def Areas.above (A : Areas T) (i : T) (rsp : Word) : Nat := A.size i - (rsp - A.base i).toNat

/-- Registers and memory when a thread calls `switch_context`. -/
structure Snapshot where
  core : Core
  mem : Mem

/-! ### Suspended threads -/

/-- **A thread that was left in `snap`**: its context is where its pointer says, and its stack above
is as it was. -/
structure Suspended (A : Areas T) (mem : Mem) (i : T) (snap : Snapshot) : Prop where
  room : A.Room i snap.core.rsp
  pointer : load64 mem (A.old i) = savedContext snap.core
  context : Words mem (savedContext snap.core) (contextWords snap.core.regs snap.core.rip)
  above : SameOn snap.core.rsp (A.above i snap.core.rsp) snap.mem mem

variable {A : Areas T} {mem mem' : Mem} {i j : T} {snap : Snapshot} {core : Core}

/-- The saved context is a part of the stack. -/
theorem Areas.Room.inside (room : A.Room i core.rsp) :
    (savedContext core - A.base i).toNat + contextSize ≤ A.size i := by
  obtain ⟨low, high⟩ := room
  unfold savedContext contextSize at *
  bv_omega

/-- So is what lies above. -/
theorem Areas.Room.above_inside {rsp : Word} (room : A.Room i rsp) :
    (rsp - A.base i).toNat + A.above i rsp ≤ A.size i := by
  have := room.2
  unfold Areas.above
  omega

/-- A change elsewhere leaves a suspended thread alone. -/
theorem Suspended.frame (was : Suspended A mem i snap)
    (pointer : SameOn (A.old i) 8 mem mem') (stack : SameOn (A.base i) (A.size i) mem mem') :
    Suspended A mem' i snap := by
  refine ⟨was.room, pointer.load64.trans was.pointer, was.context.congr (stack.mono was.room.inside),
    was.above.trans (stack.mono was.room.above_inside)⟩

/-- **One switch**: the CPU has the registers of the suspended thread, and the caller is suspended as
it was. -/
theorem Suspended.switch (target : Suspended A mem j snap) (other : i ≠ j)
    (old : core.regs .rdi = A.old i) (new : core.regs .rsi = load64 mem (A.old j))
    (room : A.Room i core.rsp) :
    (switchContext core mem).1 = snap.core ∧ Suspended A (switchContext core mem).2 i ⟨core, mem⟩ ∧
      ∀ k, k ≠ i → SameOn (A.old k) 8 mem (switchContext core mem).2 ∧
        SameOn (A.base k) (A.size k) mem (switchContext core mem).2 := by
  have positive : 0 < contextSize := by decide
  have contexts : ∀ k, k ≠ i → Apart (savedContext core) contextSize (A.base k) (A.size k) :=
    fun k different => (A.apart i k (Ne.symm different)).part room.inside positive
  rw [target.pointer] at new
  have words := target.context
  rw [← new] at words
  have inside := target.room.inside
  rw [← new] at inside
  have oldSaved : Apart (core.regs .rdi) 8 (savedContext core) contextSize := by
    rw [old]
    exact ((A.oldStack i i).symm.part room.inside positive).symm
  obtain ⟨mem', run, saved, pointer, only⟩ := switchContext_spec words
    ((contexts j (Ne.symm other)).symm.part inside positive).symm
    (old ▸ ((A.oldStack i j).symm.part inside positive).symm) oldSaved
  rw [run, old] at *
  have back : core.regs .rsi + BitVec.ofNat 64 contextSize = snap.core.rsp := by
    rw [new, savedContext]
    bv_omega
  refine ⟨by rw [back], ⟨room, pointer, saved, fun x within => ?_⟩, fun k different => ⟨?_, ?_⟩⟩
  · refine only x (Apart.not_within ?_ within) (Apart.not_within ?_ within)
    · have := A.small i
      have := room.1
      unfold savedContext Areas.above contextSize at *
      constructor <;> bv_omega
    · exact ((A.oldStack i i).symm.part room.above_inside (Nat.zero_lt_of_lt within)).symm
  · exact fun x within => only x
      (((A.oldStack k i).symm.part room.inside positive).not_within within)
      ((A.oldApart i k (Ne.symm different)).not_within within)
  · exact fun x within => only x ((contexts k different).not_within within)
      ((A.oldStack i k).not_within within)

/-! ### Runs -/

variable [DecidableEq C] [DecidableEq T]

/-- The memory, what each CPU has in its registers, and the thread it executes. -/
structure World (C T : Type*) where
  mem : Mem
  cores : C → Core
  on : C → T

inductive SwitchEvent (C T : Type*)
  | work (c : C)
  | switch (c : C) (out into : T) (snap : Snapshot)

/-- A CPU computes, or the thread on it calls `switch_context(&old, new)` with the context pointer of
a thread that executes on no CPU. -/
inductive SwitchStep (A : Areas T) : World C T → SwitchEvent C T → World C T → Prop
  | work {w : World C T} {c : C} {core : Core} {mem : Mem}
      (own : ∀ j, j ≠ w.on c → SameOn (A.base j) (A.size j) w.mem mem)
      (pointers : ∀ j, SameOn (A.old j) 8 w.mem mem) :
      SwitchStep A w (.work c) ⟨mem, Function.update w.cores c core, w.on⟩
  | switch {w : World C T} {c : C} {j : T} (suspended : ∀ d, w.on d ≠ j)
      (old : (w.cores c).regs .rdi = A.old (w.on c))
      (new : (w.cores c).regs .rsi = load64 w.mem (A.old j))
      (room : A.Room (w.on c) (w.cores c).rsp) :
      SwitchStep A w (.switch c (w.on c) j ⟨w.cores c, w.mem⟩)
        ⟨(switchContext (w.cores c) w.mem).2,
          Function.update w.cores c (switchContext (w.cores c) w.mem).1, Function.update w.on c j⟩

/-- The last call of `switch_context` by each thread. -/
def lastCall (last : T → Option Snapshot) : SwitchEvent C T → T → Option Snapshot
  | .work _ => last
  | .switch _ out _ snap => Function.update last out (some snap)

/-- **The invariant of switching**: no thread executes on two CPUs, and every other one is suspended
as it was when it last called `switch_context`, or as it was built. -/
structure SwitchInv (A : Areas T) (built : T → Snapshot) (w : World C T)
    (last : T → Option Snapshot) : Prop where
  alone : ∀ c d, w.on c = w.on d → c = d
  suspended : ∀ j, (∀ c, w.on c ≠ j) → Suspended A w.mem j ((last j).getD (built j))

variable {built : T → Snapshot} {w w' : World C T} {last : T → Option Snapshot} {c : C}

theorem SwitchInv.step {event : SwitchEvent C T} (inv : SwitchInv A built w last)
    (step : SwitchStep A w event w') : SwitchInv A built w' (lastCall last event) := by
  cases step with
  | @work c core mem own pointers =>
    refine ⟨inv.alone, fun j away => ?_⟩
    exact (inv.suspended j away).frame (pointers j) (own j (Ne.symm (away c)))
  | @switch c j suspended old new room =>
    obtain ⟨-, left, others⟩ :=
      (inv.suspended j suspended).switch (suspended c) old new room
    have on : ∀ d, Function.update w.on c j d = if d = c then j else w.on d :=
      fun d => Function.update_apply ..
    refine ⟨fun d e same => ?_, fun k away => ?_⟩
    · dsimp only at same
      rw [on, on] at same
      split at same
      · split at same
        · simp_all
        · exact absurd same.symm (suspended e)
      · split at same
        · exact absurd same (suspended d)
        · exact inv.alone d e same
    · dsimp only at away
      by_cases here : k = w.on c
      · subst here
        rw [lastCall, Function.update_self]
        exact left
      · rw [lastCall, Function.update_of_ne here]
        obtain ⟨pointer, stack⟩ := others k here
        refine (inv.suspended k fun d same => ?_).frame pointer stack
        have still := away d
        rw [on] at still
        by_cases this : d = c
        · exact here (this ▸ same.symm)
        · rw [if_neg this] at still
          exact still same

/-- What a thread is to run: `start_function`, `argc` and `args`. -/
structure ThreadSpec where
  startFunction : Word
  argc : BitVec 32
  args : Word

/-- The thread was built by `create_thread`, and nobody has written its context pointer and its stack
since; `thread->stack` is the top of its stack page. -/
def Built (L : Layout) (A : Areas T) (mem : Mem) (j : T) (spec : ThreadSpec) : Prop :=
  ∃ s s' free, FreeList L s free ∧
    createThread spec.startFunction spec.argc spec.args s = .ok (A.old j, s') ∧
    load64 s'.mem (slot (A.old j) 2) = A.base j + pgsize ∧ A.size j = 4096 ∧
    SameOn (A.old j) 8 s'.mem mem ∧ SameOn (A.base j) (A.size j) s'.mem mem

/-- A thread that has not run: at `start_function`, with its arguments, at the top of its stack. -/
def entryCore (A : Areas T) (j : T) (spec : ThreadSpec) : Core :=
  ⟨entryRegs spec.argc spec.args, A.base j + pgsize, spec.startFunction⟩

omit [DecidableEq T] in
/-- **A thread that `create_thread` has built is suspended at its entry.** -/
theorem Built.suspended {L : Layout} {spec : ThreadSpec} (built : Built L A mem j spec)
    (before : Mem) : Suspended A mem j ⟨entryCore A j spec, before⟩ := by
  obtain ⟨s, s', free, list, done, top, size, pointer, stack⟩ := built
  obtain ⟨page, _, _, -, -, -, made⟩ := createThread_spec list done
  have base : page = A.base j := by
    have same := made.stackTop.symm.trans top
    unfold pgsize at same
    bv_omega
  subst base
  have context : savedContext (entryCore A j spec) = slot (A.base j) 496 := by
    simp only [savedContext, entryCore, contextSize, slot, pgsize]
    bv_omega
  have offset : (A.base j + pgsize - A.base j).toNat = 4096 := by
    simp only [pgsize]
    bv_omega
  have room : A.Room j (entryCore A j spec).rsp := by
    rw [Areas.Room, entryCore, offset, size]
    decide
  refine ⟨room, ?_, ?_, fun x within => ?_⟩
  · rw [context, ← made.saved, slot_zero]
    exact pointer.load64
  · refine Words.congr ?_ (stack.mono room.inside)
    rw [context]
    exact made.context
  · -- Above the top of the stack there is nothing.
    have empty : A.above j (entryCore A j spec).rsp = 0 := by
      rw [Areas.above, entryCore, offset, size]
    rw [empty] at within
    exact absurd within (Nat.not_lt_zero _)

/-- **Context switching preserves every thread's machine state.** After any run, a switch into a
thread gives the CPU the registers, stack pointer and return address the thread had when it last
called `switch_context`, with its stack above as it was; the first switch into a thread built by
`create_thread` enters its `start_function`. -/
theorem resume_of_run {L : Layout} {spec : T → ThreadSpec} {w w' w'' : World C T}
    (alone : ∀ c d, w.on c = w.on d → c = d)
    (built : ∀ j, (∀ c, w.on c ≠ j) → Built L A w.mem j (spec j))
    {events : List (SwitchEvent C T)} (run : Run (SwitchStep A) w events w') {c : C} {out into : T}
    {snap : Snapshot} (step : SwitchStep A w' (.switch c out into snap) w'') :
    (∀ left, events.foldl lastCall (fun _ => none) into = some left →
      w''.cores c = left.core ∧
        SameOn left.core.rsp (A.above into left.core.rsp) left.mem w''.mem) ∧
    (events.foldl lastCall (fun _ => none) into = none →
      w''.cores c = entryCore A into (spec into)) := by
  have inv : SwitchInv A (fun j => ⟨entryCore A j (spec j), w.mem⟩) w'
      (events.foldl lastCall fun _ => none) :=
    run.simulates _ lastCall (fun _ _ _ _ inv step => inv.step step)
      ⟨alone, fun j away => (built j away).suspended w.mem⟩
  cases step with
  | switch suspended old new room =>
    have target := inv.suspended into suspended
    obtain ⟨resumed, -, others⟩ := target.switch (suspended c) old new room
    dsimp only
    rw [Function.update_self, resumed]
    constructor
    · intro left recorded
      rw [recorded, Option.getD_some] at target ⊢
      refine ⟨rfl, target.above.trans ?_⟩
      exact (others into (Ne.symm (suspended c))).2.mono target.room.above_inside
    · intro never
      rw [never, Option.getD_none]

/-- A scheduler with a stack at `0x101000` and a thread in the pages `0x200000` and `0x201000`. -/
def demoAreas : Areas Bool where
  old i := if i then 0x200000 else 0x100000
  base i := if i then 0x201000 else 0x101000
  size _ := 4096
  small _ := by decide
  apart := by unfold Apart; decide
  oldApart := by unfold Apart; decide
  oldStack := by unfold Apart; decide

/-- The thread on the only CPU computes and calls `switch_context` with the other's pointer. -/
theorem demoAreas_yields {w : World Unit Bool} {i : Bool} (on : w.on () = i) {rsp : Word}
    (room : demoAreas.Room i rsp) :
    ∃ w₁ w₂ left, SwitchStep demoAreas w (.work ()) w₁ ∧
      SwitchStep demoAreas w₁ (.switch () i (!i) left) w₂ ∧ left.core.rsp = rsp ∧ w₂.on () = !i := by
  subst on
  let core : Core := ⟨fun r => if r = .rdi then demoAreas.old (w.on ()) else
    load64 w.mem (demoAreas.old (!w.on ())), rsp, 0⟩
  have work : SwitchStep demoAreas w (.work ()) ⟨w.mem, Function.update w.cores () core, w.on⟩ :=
    .work (fun _ _ _ _ => rfl) fun _ _ _ => rfl
  refine ⟨_, _, _, work, .switch (j := !w.on ()) (by simp) rfl rfl room, rfl, ?_⟩
  exact Function.update_self () (!w.on ()) w.on

/-- The scheduler enters a thread; the thread switches back, and when the scheduler switches to it
again it goes on where it left. -/
theorem resume_of_run_entry :
    ∃ (w w' w'' : World Unit Bool) (first left second : Snapshot),
      Run (SwitchStep demoAreas) w [.work (), .switch () false true first] w' ∧
      w'.cores () = ⟨entryRegs 2 0x5000, 0x202000, 0x104000⟩ ∧
      Run (SwitchStep demoAreas) w' [.work (), .switch () true false left, .work (),
        .switch () false true second] w'' ∧
      left.core.rsp = 0x201800 ∧ w''.cores () = left.core := by
  obtain ⟨s', done, -, -, made, -⟩ := createThread_ok 0x104000 0x5000 2 demoPhys_list
  let w : World Unit Bool := ⟨s'.mem, fun _ => ⟨fun _ => 0, 0, 0⟩, fun _ => false⟩
  have built : ∀ j, (∀ c, w.on c ≠ j) → Built demoLayout demoAreas w.mem j ⟨0x104000, 2, 0x5000⟩ := by
    rintro (_ | _) away
    · exact absurd rfl (away ())
    · exact ⟨_, s', _, demoPhys_list, done, made.stackTop, rfl, fun _ _ => rfl, fun _ _ => rfl⟩
  have scheduler : demoAreas.Room false 0x102000 := by
    unfold Areas.Room
    decide
  have thread : demoAreas.Room true 0x201800 := by
    unfold Areas.Room
    decide
  obtain ⟨w₁, w₂, first, work₁, enter, -, on₂⟩ := demoAreas_yields (w := w) rfl scheduler
  obtain ⟨w₃, w₄, left, work₂, back, rsp, on₄⟩ := demoAreas_yields on₂ thread
  obtain ⟨w₅, w₆, second, work₃, again, -, -⟩ := demoAreas_yields on₄ scheduler
  have entered := (resume_of_run (fun _ _ _ => rfl) built (.cons work₁ (.nil _)) enter).2 rfl
  have run : Run (SwitchStep demoAreas) w [.work (), .switch () false true first, .work (),
      .switch () true false left, .work ()] w₅ :=
    .cons work₁ (.cons enter (.cons work₂ (.cons back (.cons work₃ (.nil _)))))
  have resumed := ((resume_of_run (fun _ _ _ => rfl) built run again).1 left rfl).1
  exact ⟨w, w₂, w₆, first, left, second, .cons work₁ (.cons enter (.nil _)), entered,
    .cons work₂ (.cons back (.cons work₃ (.cons again (.nil _)))), rsp, resumed⟩

end ShipOS
