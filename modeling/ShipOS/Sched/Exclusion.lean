/-
**No thread executes on two CPUs, and no exited thread is dispatched.**

A machine is the scheduler's state with what each CPU executes: a thread, or the scheduler context.
Steps of all CPUs interleave, each call one atomic step. The code keeps no record of who executes
where; what protects a thread is its state `ON_CPU`, which no other CPU's dispatch and no migration
takes, and `current_thread` of the CPU that executes it.

* `Executing` — what holds of a thread while a CPU executes it; `Executing.frame`;
* `MachineInv.step` — every step keeps the invariant;
* `exclusion_of_run` — both safety properties, after every run.
-/

import ShipOS.Sched.RunQueues

namespace ShipOS

open ByteMem Ring Runs

variable {n : Nat} {L : Layout} {held : Word → Prop} {s s' : Sched n} {free : List Word}
  {nodes nodes' : Fin (n + 1) → List (Word × Word)} {c : Fin (n + 1)} {t : Word}

/-! ### The machine -/

/-- The scheduler's state and the thread each CPU executes, none in the scheduler context. -/
structure Machine (n : Nat) where
  sched : Sched n
  running : Fin (n + 1) → Option Word

/-- The steps of the machine, with the thread that is dispatched or exits. -/
inductive MachineEvent (n : Nat)
  | dispatch (c : Fin (n + 1)) (t : Word)
  | yield (c : Fin (n + 1))
  | idleYield (c : Fin (n + 1))
  | exit (c : Fin (n + 1)) (t : Word)
  | remove (t : Word)
  | balance
  | add (t : Word) (cpuIndex : BitVec 32)

/-- What CPU `c` executes after `switch_context`, if it was called. -/
def switchTo (running : Fin (n + 1) → Option Word) (c : Fin (n + 1)) (switched : Bool)
    (target : Option Word) : Fin (n + 1) → Option Word :=
  if switched then Function.update running c target else running

/-- One step. `sched_yield` and `sched_exit` are called by the thread that executes; the idle thread
runs `idle_thread_func`, which calls `idle_yield` only. -/
inductive MachineStep (L : Layout) (held : Word → Prop) :
    Machine n → MachineEvent n → Machine n → Prop
  | dispatch {m : Machine n} {c : Fin (n + 1)} {t : Word} {s' : Sched n}
      (scheduler : m.running c = none) (done : schedDispatch c m.sched = .ok (t, s')) :
      MachineStep L held m (.dispatch c t) ⟨s', switchTo m.running c (t ≠ 0) (some t)⟩
  | yield {m : Machine n} {c : Fin (n + 1)} {t : Word} {switched : Bool} {s' : Sched n}
      (executes : m.running c = some t) (done : schedYield c m.sched = (switched, s')) :
      MachineStep L held m (.yield c) ⟨s', switchTo m.running c switched none⟩
  | idleYield {m : Machine n} {c : Fin (n + 1)}
      (executes : m.running c = some (m.sched.cpus c).idleThread) :
      MachineStep L held m (.idleYield c) ⟨m.sched, switchTo m.running c true none⟩
  | exit {m : Machine n} {c : Fin (n + 1)} {t : Word} {switched : Bool} {s' : Sched n}
      (executes : m.running c = some t) (notIdle : t ≠ (m.sched.cpus c).idleThread)
      (done : schedExit L c m.sched = .ok (switched, s')) :
      MachineStep L held m (.exit c t) ⟨s', switchTo m.running c switched none⟩
  | remove {m : Machine n} {t : Word} {s' : Sched n}
      (done : schedRemoveThread L t m.sched = .ok s') :
      MachineStep L held m (.remove t) { m with sched := s' }
  | balance {m : Machine n} {s' : Sched n} (done : schedBalance L m.sched = .ok s') :
      MachineStep L held m .balance { m with sched := s' }
  | add {m : Machine n} {t : Word} {cpuIndex : BitVec 32} {s' : Sched n} (isHeld : held t)
      (notIdle : ∀ d, t ≠ (m.sched.cpus d).idleThread) (unqueued : ∀ c, ¬ InQueue m.sched c t)
      (notExecuting : ∀ c, m.running c ≠ some t)
      (done : schedAddThread t cpuIndex m.sched = .ok s') :
      MachineStep L held m (.add t cpuIndex) { m with sched := s' }

/-- The threads that called `sched_exit` and were not added again. -/
def exitedAfter (exited : Word → Prop) : MachineEvent n → Word → Prop
  | .exit _ t => fun u => exited u ∨ u = t
  | .add t _ => fun u => exited u ∧ u ≠ t
  | _ => exited

/-! ### The invariant -/

/-- **What holds of a thread while CPU `c` executes it**: it is the current thread, and the CPU's
idle thread or `ON_CPU` and in no other CPU's queue. -/
structure Executing (held : Word → Prop) (s : Sched n)
    (nodes : Fin (n + 1) → List (Word × Word)) (c : Fin (n + 1)) (t : Word) : Prop where
  current : (s.cpus c).currentThread = t
  isHeld : held t
  place : t = (s.cpus c).idleThread ∨ (∀ d, t ≠ (s.cpus d).idleThread) ∧
    threadState s.phys.mem t = SchedState.onCpu.raw ∧ ∀ d, At nodes d t → d = c

/-- A step that leaves the thread, its CPU's record and the idle threads alone. -/
theorem Executing.frame (was : Executing held s nodes c t)
    (current : (s'.cpus c).currentThread = (s.cpus c).currentThread)
    (idle : ∀ d, (s'.cpus d).idleThread = (s.cpus d).idleThread)
    (state : (∀ d, t ≠ (s.cpus d).idleThread) →
      threadState s'.phys.mem t = threadState s.phys.mem t)
    (place : ∀ d, At nodes' d t → At nodes d t) : Executing held s' nodes' c t := by
  refine ⟨current.trans was.current, was.isHeld, ?_⟩
  rcases was.place with isIdle | ⟨notIdle, onCpu, home⟩
  · exact .inl (isIdle.trans (idle c).symm)
  · refine .inr ⟨fun d => ?_, (state notIdle).trans onCpu, fun d here => home d (place d here)⟩
    rw [idle d]
    exact notIdle d

/-- A thread that is not idle and `ON_CPU` is not `RUNNABLE`. -/
theorem Executing.not_runnable (was : Executing held s nodes c t)
    (notIdle : t ≠ (s.cpus c).idleThread) : ¬ Runnable s.phys.mem t := by
  obtain ⟨-, onCpu, -⟩ := was.place.resolve_left notIdle
  rw [Runnable, onCpu]
  decide

/-- **The invariant of the machine**, with the threads that have exited. -/
structure MachineInv (L : Layout) (held : Word → Prop) (m : Machine n) (exited : Word → Prop)
    (free : List Word) (nodes : Fin (n + 1) → List (Word × Word)) : Prop where
  queues : Queues L held m.sched free nodes
  idleApart : ∀ c d, (m.sched.cpus c).idleThread = (m.sched.cpus d).idleThread → c = d
  executing : ∀ c t, m.running c = some t → Executing held m.sched nodes c t
  alone : ∀ c d t, m.running c = some t → m.running d = some t → c = d
  gone : ∀ t, exited t → (∀ d, t ≠ (m.sched.cpus d).idleThread) ∧ ∀ d, ¬ At nodes d t

section Steps

variable {m : Machine n} {exited : Word → Prop} (inv : MachineInv L held m exited free nodes)

include inv

/-- **A step that runs nothing new**: each thread that executes afterwards executed before and is
left alone, and the exited threads are not queued. -/
theorem MachineInv.keep {m' : Machine n} {exited' : Word → Prop} {free' : List Word}
    (queues : Queues L held m'.sched free' nodes')
    (idle : ∀ d, (m'.sched.cpus d).idleThread = (m.sched.cpus d).idleThread)
    (running : ∀ c t, m'.running c = some t → m.running c = some t)
    (executing : ∀ c t, m'.running c = some t → Executing held m'.sched nodes' c t)
    (gone : ∀ t, exited' t → (∀ d, t ≠ (m.sched.cpus d).idleThread) ∧ ∀ d, ¬ At nodes' d t) :
    MachineInv L held m' exited' free' nodes' := by
  refine ⟨queues, fun c d same => ?_, executing,
    fun c d t here there => inv.alone c d t (running c t here) (running d t there), fun t out => ?_⟩
  · rw [idle, idle] at same
    exact inv.idleApart c d same
  · obtain ⟨notIdle, unqueued⟩ := gone t out
    refine ⟨fun d => ?_, unqueued⟩
    rw [idle d]
    exact notIdle d

theorem MachineInv.dispatch {next : Word} (scheduler : m.running c = none)
    (done : schedDispatch c m.sched = .ok (next, s')) :
    ¬ exited next ∧ ∃ free' nodes',
      MachineInv L held ⟨s', switchTo m.running c (next ≠ 0) (some next)⟩ exited free' nodes' := by
  obtain ⟨_, _, nodes', done', queues, same, cpus, isHeld, origin, states⟩ :=
    schedDispatch_spec inv.queues c
  rw [done] at done'
  cases done'
  have nonzero : next ≠ 0 := inv.queues.held_ne_zero isHeld
  -- No CPU executes the thread: an idle thread is executed by its own CPU only, and the state of
  -- a queued one is `RUNNABLE`.
  have nowhere : ∀ d, m.running d ≠ some next := by
    intro d executes
    have there := inv.executing d next executes
    rcases origin with rfl | ⟨queued, runnable⟩
    · rcases there.place with isIdle | ⟨notIdle, -⟩
      · have equal := inv.idleApart c d isIdle
        subst equal
        rw [scheduler] at executes
        cases executes
      · exact notIdle c rfl
    · exact there.not_runnable (inv.queues.at_not_idle queued d) runnable
  refine ⟨fun out => ?_, free, nodes', ?_⟩
  · obtain ⟨notIdle, unqueued⟩ := inv.gone next out
    exact origin.elim (notIdle c) fun queued => unqueued c queued.1
  · rw [switchTo, if_pos (decide_eq_true nonzero)]
    refine ⟨queues, fun d e equal => ?_, fun d t executes => ?_, fun d e t here there => ?_,
      fun t out => ?_⟩
    · rw [cpus.idle, cpus.idle] at equal
      exact inv.idleApart d e equal
    · obtain ⟨rfl, ⟨⟩⟩ | ⟨other, was⟩ := update_cases (P := (· = some t)) executes
      · refine ⟨cpus.here, isHeld, ?_⟩
        rcases origin with isIdle | ⟨queued, -⟩
        · exact .inl (isIdle.trans (cpus.idle d).symm)
        · refine .inr ⟨fun e => ?_, ?_, fun e here => ?_⟩
          · rw [cpus.idle]
            exact inv.queues.at_not_idle queued e
          · rw [states next isHeld, if_pos rfl]
          · exact inv.queues.at_unique ((same e next).mp here) queued
      · have there := inv.executing d t was
        refine there.frame (cpus.other d other) cpus.idle (fun _ => ?_) fun e => (same e t).mp
        rw [states t there.isHeld, if_neg]
        rintro rfl
        exact nowhere d was
    · refine update_unique (P := (· = some t)) (fun d e => inv.alone d e t) ?_ here there
      rintro ⟨⟩ d executes
      exact absurd executes (nowhere d)
    · obtain ⟨notIdle, unqueued⟩ := inv.gone t out
      refine ⟨fun d => ?_, fun d here => unqueued d ((same d t).mp here)⟩
      rw [cpus.idle]
      exact notIdle d

/-- The threads that still execute when CPU `c` has gone to its scheduler. -/
theorem MachineInv.others (executes : m.running c = some t) {d : Fin (n + 1)} {u : Word}
    (still : Function.update m.running c none d = some u) :
    d ≠ c ∧ u ≠ t ∧ m.running d = some u := by
  obtain ⟨-, ⟨⟩⟩ | ⟨other, was⟩ := update_cases (P := (· = some u)) still
  refine ⟨other, ?_, was⟩
  rintro rfl
  exact other (inv.alone d c u was executes)

theorem MachineInv.yield {switched : Bool} (executes : m.running c = some t)
    (done : schedYield c m.sched = (switched, s')) :
    ∃ free' nodes', MachineInv L held ⟨s', switchTo m.running c switched none⟩ exited
      free' nodes' := by
  have here := inv.executing c t executes
  by_cases isIdle : t = (m.sched.cpus c).idleThread
  · have stays : schedYield c m.sched = (false, m.sched) :=
      if_pos (.inr (here.current.trans isIdle))
    rw [stays] at done
    cases done
    exact ⟨free, nodes, inv⟩
  · obtain ⟨_, done', queues, cpus, states⟩ := schedYield_spec inv.queues c
      (here.current.symm ▸ here.isHeld) (here.current.symm ▸ isIdle)
    rw [done] at done'
    cases done'
    refine ⟨free, nodes, inv.keep queues cpus.idle (fun d u still => ?_) (fun d u still => ?_)
      inv.gone⟩
    · exact (inv.others executes still).2.2
    · obtain ⟨-, different, was⟩ := inv.others executes still
      have there := inv.executing d u was
      refine there.frame (cpus.current d) cpus.idle (fun _ => ?_) fun _ => id
      rw [states u there.isHeld, here.current, if_neg different]

theorem MachineInv.idleYield (executes : m.running c = some t) :
    ∃ free' nodes', MachineInv L held ⟨m.sched, switchTo m.running c true none⟩ exited
      free' nodes' :=
  ⟨free, nodes, inv.keep inv.queues (fun _ => rfl)
    (fun _ _ still => (inv.others executes still).2.2)
    (fun d u still => inv.executing d u (inv.others executes still).2.2) inv.gone⟩

theorem MachineInv.exit {switched : Bool} (executes : m.running c = some t)
    (notIdle : t ≠ (m.sched.cpus c).idleThread)
    (done : schedExit L c m.sched = .ok (switched, s')) :
    ∃ free' nodes', MachineInv L held ⟨s', switchTo m.running c switched none⟩
      (fun u => exited u ∨ u = t) free' nodes' := by
  have here := inv.executing c t executes
  obtain ⟨notAnyIdle, -, home⟩ := here.place.resolve_left notIdle
  obtain ⟨_, free', done', queues, cpus, states⟩ := schedExit_spec inv.queues c
    (here.current.symm ▸ here.isHeld) (here.current.symm ▸ notIdle)
  rw [done] at done'
  cases done'
  rw [here.current] at queues states
  refine ⟨free', _, inv.keep queues cpus.idle (fun d u still => ?_) (fun d u still => ?_)
    fun u out => ?_⟩
  · exact (inv.others executes still).2.2
  · obtain ⟨other, different, was⟩ := inv.others executes still
    have there := inv.executing d u was
    refine there.frame (cpus.other d other) cpus.idle (fun _ => ?_)
      fun _ place => (at_without.mp place).1
    rw [states u there.isHeld, if_neg different]
  · rcases out with before | rfl
    · obtain ⟨noIdle, unqueued⟩ := inv.gone u before
      exact ⟨noIdle, fun d place => unqueued d (at_without.mp place).1⟩
    · refine ⟨notAnyIdle, fun d place => ?_⟩
      obtain ⟨was, stays⟩ := at_without.mp place
      exact stays ⟨home d was, rfl⟩

theorem MachineInv.remove {u : Word} (done : schedRemoveThread L u m.sched = .ok s') :
    ∃ free' nodes', MachineInv L held { m with sched := s' } exited free' nodes' := by
  obtain ⟨_, free', done', queues, cpus, states⟩ := schedRemoveThread_spec inv.queues u
  rw [done] at done'
  cases done'
  have fewer : ∀ d t, At (fun c => without u (nodes c)) d t → At nodes d t := by
    rintro d t ⟨x, member⟩
    exact ⟨x, (List.mem_filter.mp member).1⟩
  refine ⟨free', _, inv.keep queues cpus.idle (fun _ _ => id) (fun d t executes => ?_)
    fun t out => ?_⟩
  · have there := inv.executing d t executes
    exact there.frame (cpus.current d) cpus.idle (fun _ => states t there.isHeld)
      fun e => fewer e t
  · obtain ⟨notIdle, unqueued⟩ := inv.gone t out
    exact ⟨notIdle, fun d place => unqueued d (fewer d t place)⟩

theorem MachineInv.balance (done : schedBalance L m.sched = .ok s') :
    ∃ free' nodes', MachineInv L held { m with sched := s' } exited free' nodes' := by
  obtain ⟨_, free', nodes', done', queues, cpus, states, effect⟩ := schedBalance_spec inv.queues
  rw [done] at done'
  cases done'
  -- The thread that moves is queued and `RUNNABLE`, so it neither executes nor has exited.
  have stays : ∀ t, (∀ src, At nodes src t → ¬ Runnable m.sched.phys.mem t) →
      ∀ d, At nodes' d t → At nodes d t := by
    intro t notMoved d place
    rcases effect with same | ⟨src, dst, u, here, -, runnable, moved⟩
    · exact (same d t).mp place
    · rcases (moved d t).mp place with ⟨was, -⟩ | ⟨-, rfl⟩
      · exact was
      · exact absurd runnable (notMoved src here)
  refine ⟨free', nodes', inv.keep queues cpus.idle (fun _ _ => id) (fun d t executes => ?_)
    fun t out => ?_⟩
  · have there := inv.executing d t executes
    exact there.frame (cpus.current d) cpus.idle (fun _ => states t there.isHeld)
      (stays t fun src here => there.not_runnable (inv.queues.at_not_idle here d))
  · obtain ⟨notIdle, unqueued⟩ := inv.gone t out
    exact ⟨notIdle, fun d place =>
      unqueued d (stays t (fun src here => absurd here (unqueued src)) d place)⟩

theorem MachineInv.add {u : Word} {cpuIndex : BitVec 32} (isHeld : held u)
    (notIdle : ∀ d, u ≠ (m.sched.cpus d).idleThread) (unqueued : ∀ c, ¬ InQueue m.sched c u)
    (notExecuting : ∀ c, m.running c ≠ some u)
    (done : schedAddThread u cpuIndex m.sched = .ok s') :
    ∃ free' nodes', MachineInv L held { m with sched := s' } (fun t => exited t ∧ t ≠ u)
      free' nodes' := by
  obtain ⟨e, f, free', -, queues, cpus, states⟩ := schedAddThread_spec inv.queues isHeld
    (unqueued_iff.mpr fun c here => unqueued c (inv.queues.inQueue_iff.mpr here)) notIdle done
  have stays : ∀ t, t ≠ u → ∀ d,
      At (Function.update nodes e (nodes e ++ [(f, u)])) d t → At nodes d t :=
    fun t different d place => (at_push.mp place).resolve_right fun both => different both.2
  refine ⟨free', _, inv.keep queues cpus.idle (fun _ _ => id) (fun d t executes => ?_)
    fun t out => ?_⟩
  · have there := inv.executing d t executes
    have different : t ≠ u := by
      rintro rfl
      exact notExecuting d executes
    refine there.frame (cpus.current d) cpus.idle (fun _ => ?_) (stays t different)
    rw [states t there.isHeld, if_neg different]
  · obtain ⟨noIdle, wasUnqueued⟩ := inv.gone t out.1
    exact ⟨noIdle, fun d place => wasUnqueued d (stays t out.2 d place)⟩

/-- **Every step keeps the invariant.** -/
theorem MachineInv.step {m' : Machine n} {event : MachineEvent n}
    (step : MachineStep L held m event m') :
    ∃ free' nodes', MachineInv L held m' (exitedAfter exited event) free' nodes' := by
  cases step with
  | dispatch scheduler done => exact (inv.dispatch scheduler done).2
  | yield executes done => exact inv.yield executes done
  | idleYield executes => exact inv.idleYield executes
  | exit executes notIdle done => exact inv.exit executes notIdle done
  | remove done => exact inv.remove done
  | balance done => exact inv.balance done
  | add isHeld notIdle unqueued notExecuting done =>
    exact inv.add isHeld notIdle unqueued notExecuting done

end Steps

/-! ### Runs -/

/-- Every CPU in its scheduler context, right after `sched_init_cpu`. -/
theorem SchedFresh.machine (fresh : SchedFresh L held s free) :
    MachineInv L held ⟨s, fun _ => none⟩ (fun _ => False) free fun _ => [] where
  queues := fresh.queues
  idleApart := fresh.idleApart
  executing := nofun
  alone := nofun
  gone := nofun

/-- **After every run no thread executes on two CPUs, and none is dispatched that has called
`sched_exit` and was not added again.** -/
theorem exclusion_of_run (fresh : SchedFresh L held s free) {events : List (MachineEvent n)}
    {m : Machine n} (run : Run (MachineStep L held) ⟨s, fun _ => none⟩ events m) :
    (∀ c d t, m.running c = some t → m.running d = some t → c = d) ∧
      ∀ c t m', MachineStep L held m (.dispatch c t) m' →
        ¬ events.foldl exitedAfter (fun _ => False) t := by
  obtain ⟨free', nodes, inv⟩ := run.simulates
    (fun m exited => ∃ free nodes, MachineInv L held m exited free nodes) exitedAfter
    (fun _ _ _ _ ⟨_, _, inv⟩ step => inv.step step) ⟨free, _, fresh.machine⟩
  refine ⟨inv.alone, ?_⟩
  rintro c t _ (⟨scheduler, done⟩)
  exact (inv.dispatch scheduler done).1

/-- A thread is added to the second CPU, dispatched there and exits: no CPU dispatches it again. -/
theorem exclusion_of_run_exit :
    ∃ m, Run (MachineStep demoLayout demoHeld) ⟨demoSched, fun _ => none⟩
        [.add 0x202000 1, .dispatch 1 0x202000, .exit 1 0x202000] m ∧
      ∀ c m', ¬ MachineStep demoLayout demoHeld m (.dispatch c 0x202000) m' := by
  have inv₀ := demoSched_fresh.machine
  have unqueued : ∀ c, ¬ InQueue demoSched c 0x202000 := fun _ queued => queued.1 rfl
  have isHeld : demoHeld 0x202000 := .inr (.inr rfl)
  obtain ⟨s₁, done₁, -, cpus₁, -⟩ := addTo_spec (t := 0x202000) inv₀.queues isHeld
    (fun _ _ member => absurd member List.not_mem_nil) (by decide) 1
  have add : MachineStep demoLayout demoHeld ⟨demoSched, fun _ => none⟩ (.add 0x202000 1)
      ⟨s₁, fun _ => none⟩ := .add isHeld (by decide) unqueued nofun done₁
  obtain ⟨_, _, inv₁⟩ := inv₀.step add
  obtain ⟨next, s₂, _, done₂, -, -, cpus₂, -⟩ := schedDispatch_spec inv₁.queues 1
  have picked : next = 0x202000 := by
    have first : (addTo 1 0x202000 demoSched >>= schedDispatch 1).map Prod.fst = .ok 0x202000 := by
      decide +kernel
    rw [done₁, ok_bind, done₂] at first
    exact Except.ok.inj first
  subst picked
  have dispatch : MachineStep demoLayout demoHeld ⟨s₁, fun _ => none⟩ (.dispatch 1 0x202000)
      ⟨s₂, switchTo (fun _ => none) 1 _ (some 0x202000)⟩ := .dispatch rfl done₂
  obtain ⟨_, _, inv₂⟩ := inv₁.step dispatch
  have notIdle : (0x202000 : Word) ≠ (s₂.cpus 1).idleThread := by
    rw [cpus₂.idle, cpus₁.idle]
    decide
  have current := (inv₂.executing 1 0x202000 rfl).current
  obtain ⟨s₃, _, done₃, -⟩ := schedExit_spec inv₂.queues 1 (current.symm ▸ isHeld)
    (current.symm ▸ notIdle)
  have exit : MachineStep demoLayout demoHeld _ (.exit 1 0x202000) _ := .exit rfl notIdle done₃
  have run := Run.cons add (.cons dispatch (.cons exit (.nil _)))
  exact ⟨_, run, fun c m' again =>
    (exclusion_of_run demoSched_fresh run).2 c _ m' again (.inr rfl)⟩

end ShipOS
