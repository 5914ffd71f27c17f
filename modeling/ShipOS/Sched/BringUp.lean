/-
**Threads added while the CPUs come up (`sched_init_cpu`).**

Each AP runs `percpu_init_ap`, which makes it eligible for placement, and later `sched_init_cpu`,
which resets its run queue; the BSP adds threads meanwhile, to a CPU of its choice or to the least
loaded one. Every call is one atomic step, in any order.

* `schedInitCpu_ok`, `schedInitCpu_spec` — `sched_init_cpu` takes four pages and empties the queue;
* `Rings.schedInit` — the rings of the other CPUs stay as they are;
* `noneLost_iff` — no added thread is lost as long as no `sched_init_cpu` finds a thread in its own
  queue that is in no other, and the first call that does loses one.
-/

import ShipOS.Sched.Create
import ShipOS.Sched.RunQueues

namespace ShipOS

open ByteMem Ring Runs

variable {n : Nat} {L : Layout} {held : Word → Prop} {free : List Word}
  {nodes : Fin (n + 1) → List (Word × Word)} {c : Fin (n + 1)}

/-! ### The code -/

def createIdleThread (idleThreadFunc : Word) (s : Phys) : Except Halt (Word × Phys) := do
  let (idle, s) ← createThread idleThreadFunc 0 0 s
  if idle ≠ 0 then .ok (idle, { s with mem := changeThreadState s.mem idle .runnable })
  else .ok (idle, s)

/-- `sched_init_cpu` on CPU `c`; `128` is the size of a `struct context`. -/
def schedInitCpu (idleThreadFunc : Word) (c : Fin (n + 1)) (s : Sched n) : Except Halt (Sched n) :=
  let cpu := { s.cpus c with runQueue := 0, numThreads := 0 }
  let (schedStack, phys) := kalloc s.phys
  if schedStack = 0 then .error (.panic "sched_init_cpu: failed to allocate scheduler stack")
  else do
    let mem := memset phys.mem schedStack 0 4096
    let schedulerCtx := schedStack + pgsize - 128
    let mem := memset mem schedulerCtx 0 128
    let (idle, phys) ← createIdleThread idleThreadFunc { phys with mem := mem }
    if idle = 0 then .error (.panic "sched_init_cpu: failed to create idle thread")
    else .ok (s.set c { cpu with idleThread := idle, currentThread := 0 } phys)

/-- `percpu_init_ap` on CPU `c`, as far as the scheduler reads the record. -/
def Sched.percpuInitAp (s : Sched n) (c : Fin (n + 1)) : Sched n :=
  s.set c { s.cpus c with currentThread := 0, idleThread := 0, started := true } s.phys

/-- How far a CPU has come. -/
inductive CpuPhase
  | off
  | percpu
  | ready
  deriving DecidableEq, Repr

structure BringUp (n : Nat) where
  sched : Sched n
  phase : Fin (n + 1) → CpuPhase

inductive BringUpCall (n : Nat)
  | percpuInitAp (c : Fin (n + 1))
  | schedInitCpu (c : Fin (n + 1))
  | add (t : Word) (cpuIndex : BitVec 32)

/-- Each CPU runs `percpu_init_ap` and then `sched_init_cpu`; the BSP adds threads at any time. -/
inductive BringUpStep (idleThreadFunc : Word) (held : Word → Prop) :
    BringUp n → BringUpCall n → BringUp n → Prop
  | percpuInitAp {s : BringUp n} {c : Fin (n + 1)} (here : s.phase c = .off) :
    BringUpStep idleThreadFunc held s (.percpuInitAp c)
      ⟨s.sched.percpuInitAp c, Function.update s.phase c .percpu⟩
  | schedInitCpu {s : BringUp n} {c : Fin (n + 1)} {sched : Sched n} (here : s.phase c = .percpu)
    (done : schedInitCpu idleThreadFunc c s.sched = .ok sched) :
    BringUpStep idleThreadFunc held s (.schedInitCpu c)
      ⟨sched, Function.update s.phase c .ready⟩
  | add {s : BringUp n} {t : Word} {cpuIndex : BitVec 32} {sched : Sched n} (isHeld : held t)
    (done : schedAddThread t cpuIndex s.sched = .ok sched) :
    BringUpStep idleThreadFunc held s (.add t cpuIndex) ⟨sched, s.phase⟩

/-- The threads added so far. -/
def addedAfter (added : Word → Prop) : BringUpCall n → Word → Prop
  | .add t _ => fun u => added u ∨ u = t
  | _ => added

/-- The thread is on the ring at CPU `c`'s `run_queue`, and `num_threads` is the ring's length. -/
def Counted (s : Sched n) (c : Fin (n + 1)) (t : Word) : Prop :=
  (s.cpus c).runQueue ≠ 0 ∧ ∃ q x, Queue s.phys.mem (s.cpus c).runQueue q ∧ (x, t) ∈ q ∧
    (s.cpus c).numThreads.toNat = q.length

/-- **No added thread is lost**: each is queued and counted on some CPU. -/
def NoneLost (s : Sched n) (added : Word → Prop) : Prop := ∀ t, added t → ∃ c, Counted s c t

/-- A `sched_init_cpu` resets a queue whose threads are all in another one too; with threads that
are added once, an empty queue. -/
def ResetsNothing (s : Sched n) : BringUpCall n → Prop
  | .schedInitCpu c => ∀ t, InQueue s c t → ∃ d, d ≠ c ∧ InQueue s d t
  | _ => True

/-- Before the first call: empty queues, and the pages of the threads are allocated. -/
structure BringUpFresh (L : Layout) (held : Word → Prop) (s : Sched n) (free : List Word) :
    Prop where
  list : FreeList L s.phys free
  page : ∀ t, held t → IsPage L t ∧ t ∉ free
  queue : ∀ c, (s.cpus c).runQueue = 0
  count : ∀ c, (s.cpus c).numThreads = 0

/-! ### `sched_init_cpu` -/

section SchedInit

variable {s s' : Sched n} {idleThreadFunc schedStack thread stack kstack : Word}

theorem schedulerCtx_eq : schedStack + pgsize - 128 = slot schedStack 496 := by
  simp only [slot, pgsize]
  bv_omega

/-- **Four free pages make a scheduler.** -/
theorem schedInitCpu_ok (idleThreadFunc : Word) (c : Fin (n + 1))
    (list : FreeList L s.phys (schedStack :: thread :: stack :: kstack :: free)) :
    ∃ cpu phys, schedInitCpu idleThreadFunc c s = .ok (s.set c cpu phys) ∧ cpu.runQueue = 0 ∧
      cpu.numThreads = 0 ∧ FreeList L phys free ∧
      OnlyPages [schedStack, thread, stack, kstack] s.phys.mem phys.mem := by
  have page := list.page schedStack List.mem_cons_self
  have pageT := list.page thread (by simp)
  have nodup := List.nodup_cons.mp list.nodup
  have nodupT := List.nodup_cons.mp nodup.2
  obtain ⟨phys₁, take, list₁, only₁⟩ := kalloc_cons list
  have cleared : OnlyPage schedStack phys₁.mem (memset (memset phys₁.mem schedStack 0 4096)
      (schedStack + pgsize - 128) 0 128) := by
    rw [schedulerCtx_eq]
    exact (onlyPage_fill _ _ 0).trans (onlyPage_context _ _ (le_refl 128))
  obtain ⟨phys₂, created, list₂, only₂, -⟩ :=
    createThread_ok idleThreadFunc 0 0 (list₁.other page.aligned nodup.1 cleared)
  have runnable := changeThreadState_only phys₂.mem thread .runnable
  refine ⟨{ s.cpus c with runQueue := 0, numThreads := 0, idleThread := thread, currentThread := 0 },
    { phys₂ with mem := changeThreadState phys₂.mem thread .runnable }, ?_, rfl, rfl,
    list₂.other pageT.aligned (fun inside => nodupT.1 (by simp [inside])) runnable, ?_⟩
  · simp only [schedInitCpu, take]
    rw [if_neg page.ne_zero, createIdleThread, created, ok_bind]
    dsimp only
    rw [if_pos pageT.ne_zero, ok_bind]
    exact if_neg pageT.ne_zero
  · have first : OnlyPages [schedStack, thread, stack, kstack] s.phys.mem _ :=
      (only₁.trans cleared).pages List.mem_cons_self
    exact (first.trans (only₂.mono fun p => List.mem_cons_of_mem _)).trans
      (runnable.pages (by simp))

/-- **A call of `sched_init_cpu` that returns** took its pages from the free list. -/
theorem schedInitCpu_spec (list : FreeList L s.phys free)
    (done : schedInitCpu idleThreadFunc c s = .ok s') :
    ∃ ps rest cpu phys, free = ps ++ rest ∧ s' = s.set c cpu phys ∧ cpu.runQueue = 0 ∧
      cpu.numThreads = 0 ∧ FreeList L phys rest ∧ OnlyPages ps s.phys.mem phys.mem := by
  cases free with
  | nil =>
    simp only [schedInitCpu, kalloc_nil list, if_true] at done
    cases done
  | cons schedStack free =>
    have page := list.page schedStack List.mem_cons_self
    have fresh := (List.nodup_cons.mp list.nodup).1
    obtain ⟨phys₁, take, list₁, only₁⟩ := kalloc_cons list
    have idle := done
    simp only [schedInitCpu, take] at idle
    rw [if_neg page.ne_zero, createIdleThread] at idle
    obtain ⟨⟨thread, phys₂⟩, made, -⟩ := bind_ok idle
    obtain ⟨⟨thread', phys₃⟩, created, -⟩ := bind_ok made
    have cleared : OnlyPage schedStack phys₁.mem (memset (memset phys₁.mem schedStack 0 4096)
        (schedStack + pgsize - 128) 0 128) := by
      rw [schedulerCtx_eq]
      exact (onlyPage_fill _ _ 0).trans (onlyPage_context _ _ (le_refl 128))
    obtain ⟨stack, kstack, rest, rfl, -⟩ :=
      createThread_spec (list₁.other page.aligned fresh cleared) created
    obtain ⟨cpu, phys, done', effect⟩ := schedInitCpu_ok idleThreadFunc c list
    rw [done] at done'
    exact ⟨[schedStack, thread', stack, kstack], rest, cpu, phys, rfl, Except.ok.inj done', effect⟩

end SchedInit

/-! ### The invariant -/

/-- A queue is dropped, and some free pages are taken. -/
theorem NodeRoom.drop {ps : List Word} (room : NodeRoom L held (ps ++ free) nodes) :
    NodeRoom L held free (Function.update nodes c []) := by
  have back : ∀ {d x}, x ∈ Function.update nodes c [] d → x ∈ nodes d := by
    intro d x member
    obtain ⟨-, inside⟩ | ⟨-, inside⟩ := mem_update.mp member
    · exact absurd inside List.not_mem_nil
    · exact inside
  refine ⟨fun d x member => ?_, fun d => ?_, fun d e x memberX y memberY same => ?_,
    fun t isHeld => ?_⟩
  · obtain ⟨page, notFree⟩ := room.page d x (back member)
    exact ⟨page, fun inside => notFree (List.mem_append_right _ inside)⟩
  · by_cases here : d = c
    · rw [here, Function.update_self]
      exact List.nodup_nil
    · rw [Function.update_of_ne here]
      exact room.nodup d
  · exact room.unique d e x (back memberX) y (back memberY) same
  · obtain ⟨page, notFree, notNode⟩ := room.apart t isHeld
    exact ⟨page, fun inside => notFree (List.mem_append_right _ inside),
      fun d x member => notNode d x (back member)⟩

variable {sched sched' : Sched n} {added : Word → Prop}

/-- **`percpu_init_ap`** does not touch the queue. -/
theorem Rings.percpuInitAp (inv : Rings L held sched free nodes) (c : Fin (n + 1)) :
    Rings L held (sched.percpuInitAp c) free nodes := by
  refine ⟨inv.room, inv.list, fun d => ?_, fun d => ?_⟩
  · by_cases here : d = c
    · rw [here, Sched.percpuInitAp, Sched.set_self]
      exact inv.queue c
    · rw [Sched.percpuInitAp, Sched.set_ne sched here]
      exact inv.queue d
  · by_cases here : d = c
    · rw [here, Sched.percpuInitAp, Sched.set_self]
      exact inv.count c
    · rw [Sched.percpuInitAp, Sched.set_ne sched here]
      exact inv.count d

/-- **`sched_init_cpu` empties one queue** and leaves the others alone. -/
theorem Rings.schedInit {idleThreadFunc : Word} (inv : Rings L held sched free nodes)
    (done : schedInitCpu idleThreadFunc c sched = .ok sched') :
    ∃ free', Rings L held sched' free' (Function.update nodes c []) := by
  obtain ⟨ps, rest, cpu, phys, rfl, rfl, null, zero, list, only⟩ := schedInitCpu_spec inv.list done
  refine ⟨rest, inv.set inv.room.drop list ⟨null, IsRing.nil, by simp⟩ (by rw [zero]; rfl) ?_ ?_
    only⟩
  · exact fun p member => (inv.list.page p (List.mem_append_left _ member)).aligned
  · exact fun d _ y member inside =>
      (inv.room.page d y member).2 (List.mem_append_left _ inside)

/-- **`sched_add_thread`** appends the thread to one queue. -/
theorem Rings.schedAdd {t : Word} {cpuIndex : BitVec 32} (inv : Rings L held sched free nodes)
    (isHeld : held t) (done : schedAddThread t cpuIndex sched = .ok sched') :
    ∃ d f free', Rings L held sched' free' (Function.update nodes d (nodes d ++ [(f, t)])) := by
  obtain ⟨d, added⟩ := schedAddThread_target done
  have written := inv.write isHeld (changeThreadState_only sched.phys.mem t .runnable)
  cases free with
  | nil =>
    rw [addTo, runqueueAddUnlocked, pushThreadList_exhausted written.list] at added
    cases added
  | cons f free' =>
    obtain ⟨cpu, phys, pushed, -, -, rings, -⟩ := written.add (c := d) t
    rw [addTo, pushed] at added
    cases added
    exact ⟨d, f, free', rings⟩

/-- **The invariant of bring-up**: the rings, and the queued threads are those added. -/
structure BringUpInv (L : Layout) (held : Word → Prop) (s : Sched n) (added : Word → Prop)
    (free : List Word) (nodes : Fin (n + 1) → List (Word × Word)) : Prop where
  rings : Rings L held s free nodes
  added_iff : ∀ t, added t ↔ ∃ c, At nodes c t

theorem BringUpFresh.inv (fresh : BringUpFresh L held sched free) :
    BringUpInv L held sched (fun _ => False) free fun _ => [] where
  rings := by
    refine ⟨⟨by simp, by simp, by simp, fun t isHeld => ?_⟩, fresh.list,
      fun c => ⟨fresh.queue c, IsRing.nil, by simp⟩, fun c => by rw [fresh.count c]; rfl⟩
    obtain ⟨page, notFree⟩ := fresh.page t isHeld
    exact ⟨page, notFree, by simp⟩
  added_iff := by simp [At]

theorem Rings.counted (inv : Rings L held sched free nodes) {t : Word} (here : At nodes c t) :
    Counted sched c t := by
  obtain ⟨nonempty, -⟩ := inv.inQueue_iff.mpr here
  obtain ⟨x, member⟩ := here
  exact ⟨nonempty, nodes c, x, inv.queue c, member, inv.count c⟩

theorem Counted.inQueue {t : Word} (counted : Counted sched c t) : InQueue sched c t := by
  obtain ⟨nonempty, q, x, queue, member, -⟩ := counted
  exact ⟨nonempty, q, x, queue, member⟩

theorem BringUpInv.noneLost (inv : BringUpInv L held sched added free nodes) :
    NoneLost sched added := by
  intro t isAdded
  obtain ⟨c, here⟩ := (inv.added_iff t).mp isAdded
  exact ⟨c, inv.rings.counted here⟩

/-- Who is queued once a queue is reset. -/
theorem at_drop {d : Fin (n + 1)} {t : Word} :
    At (Function.update nodes c []) d t ↔ d ≠ c ∧ At nodes d t := by
  by_cases here : d = c
  · rw [here]
    simp [At]
  · simp [At, here]

variable {idleThreadFunc : Word} {s s' start : BringUp n} {call : BringUpCall n}

/-- Every call that resets nothing keeps the invariant. -/
theorem BringUpInv.step (inv : BringUpInv L held s.sched added free nodes)
    (fits : ResetsNothing s.sched call) (step : BringUpStep idleThreadFunc held s call s') :
    ∃ free' nodes', BringUpInv L held s'.sched (addedAfter added call) free' nodes' := by
  cases step with
  | @percpuInitAp c here =>
    exact ⟨free, nodes, inv.rings.percpuInitAp c, inv.added_iff⟩
  | @schedInitCpu c sched here done =>
    obtain ⟨free', rings⟩ := inv.rings.schedInit done
    refine ⟨free', _, rings, fun t => ?_⟩
    refine (inv.added_iff t).trans ⟨?_, ?_⟩
    · intro ⟨d, queued⟩
      by_cases own : d = c
      · obtain ⟨e, other, elsewhere⟩ := fits t (inv.rings.inQueue_iff.mpr (own ▸ queued))
        exact ⟨e, at_drop.mpr ⟨other, inv.rings.inQueue_iff.mp elsewhere⟩⟩
      · exact ⟨d, at_drop.mpr ⟨own, queued⟩⟩
    · intro ⟨d, queued⟩
      exact ⟨d, (at_drop.mp queued).2⟩
  | @add t cpuIndex sched isHeld done =>
    obtain ⟨d, f, free', rings⟩ := inv.rings.schedAdd isHeld done
    refine ⟨free', _, rings, fun u => ?_⟩
    simp only [addedAfter, at_push, exists_or, ← inv.added_iff u, exists_eq_left]

/-- **No thread is lost during bring-up, exactly as long as no reset hits a queued thread.** Along
every run whose `sched_init_cpu` calls reset nothing that is not queued elsewhere, every added thread
is queued and counted, and the next call keeps it so if and only if it is of that kind too. -/
theorem noneLost_iff (fresh : BringUpFresh L held start.sched free) {calls : List (BringUpCall n)}
    (run : Run (fun s call s' => ResetsNothing s.sched call ∧
      BringUpStep idleThreadFunc held s call s') start calls s)
    (step : BringUpStep idleThreadFunc held s call s') :
    NoneLost s.sched (calls.foldl addedAfter fun _ => False) ∧
      (NoneLost s'.sched (addedAfter (calls.foldl addedAfter fun _ => False) call) ↔
        ResetsNothing s.sched call) := by
  obtain ⟨free', nodes, inv⟩ := run.simulates
    (fun s added => ∃ free nodes, BringUpInv L held s.sched added free nodes) addedAfter
    (fun _ _ _ _ ⟨_, _, inv⟩ step => inv.step step.1 step.2) ⟨free, _, fresh.inv⟩
  refine ⟨inv.noneLost, fun kept => ?_, fun fits => ?_⟩
  · cases step with
    | percpuInitAp | add => trivial
    | @schedInitCpu c sched here done =>
      intro t queued
      obtain ⟨free'', rings⟩ := inv.rings.schedInit done
      obtain ⟨d, counted⟩ := kept t ((inv.added_iff t).mpr ⟨c, inv.rings.inQueue_iff.mp queued⟩)
      obtain ⟨other, elsewhere⟩ := at_drop.mp (rings.inQueue_iff.mp counted.inQueue)
      exact ⟨d, other, inv.rings.inQueue_iff.mpr elsewhere⟩
  · obtain ⟨_, _, inv'⟩ := inv.step fits step
    exact inv'.noneLost

/-! ### Two CPUs -/

/-- The BSP is ready and one AP is off; five pages are free. -/
def demoBringUp : BringUp 1 where
  sched :=
    { phys := ⟨store64 (store64 (store64 (store64 (fun _ => 0) 0x201000 0x202000) 0x202000 0x203000)
        0x203000 0x204000) 0x204000 0x205000, 0x201000⟩
      cpus := fun c => { currentThread := 0, idleThread := 0, runQueue := 0, numThreads := 0,
                         started := c.val = 0 } }
  phase c := if c.val = 0 then .ready else .off

/-- The one thread there is to add. -/
def demoThread (t : Word) : Prop := t = 0x200000

theorem demoBringUp_fresh : BringUpFresh demoLayout demoThread demoBringUp.sched
    [0x201000, 0x202000, 0x203000, 0x204000, 0x205000] where
  list := by
    refine ⟨by decide +kernel, by decide, ?_⟩
    simp only [List.forall_mem_cons]
    exact ⟨by decide, by decide, by decide, by decide, by decide, by simp⟩
  page := by
    intro t isThread
    obtain rfl := isThread
    exact ⟨by decide, by decide⟩
  queue _ := rfl
  count _ := rfl

/-- The AP's `percpu_init_ap`, which makes it eligible. -/
def demoEligible : BringUp 1 :=
  ⟨demoBringUp.sched.percpuInitAp (Fin.last 1),
    Function.update demoBringUp.phase (Fin.last 1) .percpu⟩

theorem demoEligible_step :
    BringUpStep 0 demoThread demoBringUp (.percpuInitAp 1) demoEligible := .percpuInitAp rfl

theorem demoEligible_rings : Rings demoLayout demoThread demoEligible.sched
    [0x201000, 0x202000, 0x203000, 0x204000, 0x205000] fun _ => [] :=
  demoBringUp_fresh.inv.rings.percpuInitAp 1

/-- A thread is added to the AP by its index. -/
theorem demo_add {s : Sched 1} {f : Word} {nodes : Fin 2 → List (Word × Word)}
    (rings : Rings demoLayout demoThread s (f :: free) nodes) :
    ∃ s', schedAddThread 0x200000 1 s = .ok s' ∧ Rings demoLayout demoThread s' free
      (Function.update nodes 1 (nodes 1 ++ [(f, 0x200000)])) := by
  have written := rings.write rfl (changeThreadState_only s.phys.mem 0x200000 .runnable)
  obtain ⟨cpu, phys, pushed, -, -, rings', -⟩ := written.add (c := 1) 0x200000
  refine ⟨_, ?_, rings'⟩
  rw [schedAddThread, if_neg (by decide), if_neg (by decide), dif_pos (by decide)]
  show addTo 1 0x200000 s = _
  rw [addTo, pushed]
  rfl

/-- A thread that is added to the eligible AP is there, for the time being. -/
theorem noneLost_iff_add :
    ∃ s', BringUpStep 0 demoThread demoEligible (.add 0x200000 1) s' ∧
      ∃ c, Counted s'.sched c 0x200000 := by
  obtain ⟨sched, added, -⟩ := demo_add demoEligible_rings
  have step : BringUpStep 0 demoThread demoEligible (.add 0x200000 1) ⟨sched, demoEligible.phase⟩ :=
    .add rfl added
  have eligible : ResetsNothing demoBringUp.sched (.percpuInitAp 1) := trivial
  have kept := noneLost_iff demoBringUp_fresh (.cons ⟨eligible, demoEligible_step⟩ (.nil _)) step
  exact ⟨_, step, kept.2.mpr trivial 0x200000 (.inr rfl)⟩

/-- **A thread is lost.** It is added to the AP between its `percpu_init_ap` and its
`sched_init_cpu`, and is in no queue afterwards. -/
theorem added_thread_lost :
    ∃ s', Run (BringUpStep 0 demoThread) demoBringUp
        [.percpuInitAp 1, .add 0x200000 1, .schedInitCpu 1] s' ∧
      ∀ c, ¬ InQueue s'.sched c 0x200000 := by
  obtain ⟨sched, added, rings⟩ := demo_add demoEligible_rings
  obtain ⟨cpu, phys, done, -⟩ := schedInitCpu_ok 0 1 rings.list
  obtain ⟨free', rings'⟩ := rings.schedInit done
  refine ⟨_, .cons demoEligible_step (.cons (.add rfl added) (.cons (.schedInitCpu rfl done)
    (.nil _))), fun c queued => ?_⟩
  obtain ⟨other, x, member⟩ := at_drop.mp (rings'.inQueue_iff.mp queued)
  rw [Function.update_of_ne other] at member
  exact absurd member List.not_mem_nil

end ShipOS
