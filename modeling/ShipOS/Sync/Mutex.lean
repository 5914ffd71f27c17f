/-
**The mutex (`mutex.c`).**

A mutex is a spinlock and a list of the threads that wait for it. Threads run on CPUs without
preemption: a CPU goes to another thread where a thread sleeps in the `yield` of `acquire_mutex`, or
outside of the two functions. A thread that has the mutex stays with its CPU, whose `ncli` counts the
spinlock. Every line of the two functions is one step, so the CPUs interleave between them; but a call
of `push_thread_list` is one step, and so are the call of `pop_thread_list` and the change of the thread
it returns to `RUNNABLE`, together.

* `MutexSys.next` — the next line of a thread;
* `MutexStep` — the machine;
* `WaitList` — the waiting list in memory, and what a push, a pop and a change of a thread's state do
  to it: after `WaitList.pop` the list is empty.
-/

import ShipOS.Lib.Runs
import ShipOS.Sched.Queues

namespace ShipOS

open ByteMem Runs

variable {C : Type}

/-! ### The code -/

/-- Where a thread is. A thread that has the mutex remembers its CPU and the `ncli` of that CPU before
the acquisition. -/
inductive MutexPc (C : Type)
  | outside
  /-- At `check_mutex`. -/
  | check
  /-- In the loop of `acquire_spinlock`. -/
  | spin (before : BitVec 32)
  /-- At `push_thread_list`. -/
  | push
  /-- At `change_thread_state(…, WAIT)`. -/
  | wait
  | yield
  /-- Switched away by `yield`. -/
  | asleep
  /-- Resumed after `yield`. -/
  | recheck
  | panicked (message : String)
  | locked (cpu : C) (before : BitVec 32)
  /-- In `release_mutex`, the waiting list found empty. -/
  | unlocking (cpu : C) (before : BitVec 32)
  /-- In `release_mutex`, the waiting list found not empty. -/
  | waking (cpu : C) (before : BitVec 32)

/-- Inside one of the two functions, and not asleep. -/
def MutexPc.Busy : MutexPc C → Prop
  | .outside | .asleep | .panicked _ | .locked _ _ => False
  | _ => True

/-- From the return of `acquire_mutex` to the return of `release_mutex`. -/
def MutexPc.Has (cpu : C) (before : BitVec 32) : MutexPc C → Prop
  | .locked d b | .unlocking d b | .waking d b => d = cpu ∧ b = before
  | _ => False

/-- One mutex, its threads, and the CPUs. `queued` are the threads that queued and were not yet woken,
in order; the code does not have it. -/
structure MutexSys (C : Type) where
  phys : Phys
  /-- The four bytes at `&lk->spinlock->is_locked`, which is the first of them. -/
  word : BitVec 32
  threadList : Word
  /-- `ncli`; when `popcli` panics is said where the spinlocks are. -/
  ncli : C → BitVec 32
  /-- `current_thread`. -/
  on : C → Option Word
  pc : Word → MutexPc C
  queued : List Word

def MutexSys.isLocked (s : MutexSys C) : BitVec 8 := s.word.setWidth 8

/-- The thread goes on at `pc`. -/
def MutexSys.goto (s : MutexSys C) (t : Word) (pc : MutexPc C) : MutexSys C :=
  { s with pc := Function.update s.pc t pc }

/-- `release_mutex` up to its choice. -/
def MutexSys.releaseMutex (s : MutexSys C) (cpu : C) (before : BitVec 32) : MutexPc C :=
  if s.isLocked = 0 then .panicked "release_mutex"
  else if s.threadList = 0 then .unlocking cpu before
  else .waking cpu before

variable [DecidableEq C]

/-- The next line of thread `t`, on CPU `c`. -/
def MutexSys.next (L : Layout) (c : C) (t : Word) (s : MutexSys C) : Except Halt (MutexSys C) :=
  match s.pc t with
  | .check =>
    -- `holding_spinlock`, and the `pushcli` of `acquire_spinlock`
    if s.isLocked = 0 then
      .ok { s.goto t (.spin (s.ncli c)) with ncli := Function.update s.ncli c (s.ncli c + 1) }
    else .ok (s.goto t .push)
  | .spin before =>
    if s.word = 0 then .ok { s.goto t (.locked c before) with word := 1 }
    else .ok { s with word := 1 }
  | .push => do
    let (threadList, phys) ← pushThreadList s.threadList t s.phys
    .ok { s.goto t .wait with phys := phys, threadList := threadList, queued := s.queued ++ [t] }
  | .wait =>
    .ok { s.goto t .yield with
      phys := { s.phys with mem := changeThreadState s.phys.mem t .wait } }
  | .yield => .ok { s.goto t .asleep with on := Function.update s.on c none }
  | .recheck =>
    if s.isLocked ≠ 0 then .ok (s.goto t (.panicked "acquire_mutex: spinlock in not free"))
    else .ok (s.goto t .check)
  | .unlocking _ _ =>
    -- `release_spinlock`
    if s.isLocked = 0 then .ok (s.goto t (.panicked "release_spinlock"))
    else .ok { s.goto t .outside with
      word := 0, ncli := Function.update s.ncli c (s.ncli c - 1) }
  | .waking _ _ => do
    let (thread, threadList, phys) ← popThreadList L s.threadList s.phys
    .ok { s.goto t .outside with
      phys := { phys with mem := changeThreadState phys.mem thread .runnable },
      threadList := threadList, queued := s.queued.tail }
  | _ => .ok s

/-- **What the next line of a thread does**, case by case. -/
inductive MutexLine (L : Layout) (c : C) (t : Word) (s : MutexSys C) : MutexSys C → Prop
  | enter (line : s.pc t = .check) (unlocked : s.isLocked = 0) : MutexLine L c t s
      { s.goto t (.spin (s.ncli c)) with ncli := Function.update s.ncli c (s.ncli c + 1) }
  | block (line : s.pc t = .check) (locked : s.isLocked ≠ 0) : MutexLine L c t s (s.goto t .push)
  | take {before : BitVec 32} (line : s.pc t = .spin before) (free : s.word = 0) :
      MutexLine L c t s { s.goto t (.locked c before) with word := 1 }
  | spin {before : BitVec 32} (line : s.pc t = .spin before) : MutexLine L c t s { s with word := 1 }
  | push {threadList : Word} {phys : Phys} (line : s.pc t = .push)
      (done : pushThreadList s.threadList t s.phys = .ok (threadList, phys)) : MutexLine L c t s
      { s.goto t .wait with phys := phys, threadList := threadList, queued := s.queued ++ [t] }
  | wait (line : s.pc t = .wait) : MutexLine L c t s { s.goto t .yield with
      phys := { s.phys with mem := changeThreadState s.phys.mem t .wait } }
  | yield (line : s.pc t = .yield) : MutexLine L c t s
      { s.goto t .asleep with on := Function.update s.on c none }
  | panic (line : s.pc t = .recheck) (locked : s.isLocked ≠ 0) :
      MutexLine L c t s (s.goto t (.panicked "acquire_mutex: spinlock in not free"))
  | retry (line : s.pc t = .recheck) : MutexLine L c t s (s.goto t .check)
  | refuse {d : C} {before : BitVec 32} (line : s.pc t = .unlocking d before)
      (unlocked : s.isLocked = 0) :
      MutexLine L c t s (s.goto t (.panicked "release_spinlock"))
  | unlock {d : C} {before : BitVec 32} (line : s.pc t = .unlocking d before) : MutexLine L c t s
      { s.goto t .outside with word := 0, ncli := Function.update s.ncli c (s.ncli c - 1) }
  | wake {d : C} {before : BitVec 32} {thread threadList : Word} {phys : Phys}
      (line : s.pc t = .waking d before)
      (done : popThreadList L s.threadList s.phys = .ok (thread, threadList, phys)) :
      MutexLine L c t s { s.goto t .outside with
        phys := { phys with mem := changeThreadState phys.mem thread .runnable },
        threadList := threadList, queued := s.queued.tail }

theorem mutexLine_of_next {L : Layout} {c : C} {t : Word} {s s' : MutexSys C}
    (busy : (s.pc t).Busy) (done : s.next L c t = .ok s') : MutexLine L c t s s' := by
  rw [MutexSys.next] at done
  cases line : s.pc t with
  | outside | asleep | panicked | locked =>
    rw [line] at busy
    exact busy.elim
  | check =>
    simp only [line] at done
    split at done
    case isTrue unlocked =>
      cases done
      exact .enter line unlocked
    case isFalse locked =>
      cases done
      exact .block line locked
  | spin before =>
    simp only [line] at done
    split at done
    case isTrue free =>
      cases done
      exact .take line free
    case isFalse =>
      cases done
      exact .spin line
  | push =>
    simp only [line] at done
    obtain ⟨⟨threadList, phys⟩, pushed, rest⟩ := bind_ok done
    cases rest
    exact .push line pushed
  | wait =>
    simp only [line] at done
    cases done
    exact .wait line
  | yield =>
    simp only [line] at done
    cases done
    exact .yield line
  | recheck =>
    simp only [line] at done
    split at done
    case isTrue locked =>
      cases done
      exact .panic line locked
    case isFalse =>
      cases done
      exact .retry line
  | unlocking d before =>
    simp only [line] at done
    split at done
    case isTrue unlocked =>
      cases done
      exact .refuse line unlocked
    case isFalse =>
      cases done
      exact .unlock line
  | waking d before =>
    simp only [line] at done
    obtain ⟨⟨thread, threadList, phys⟩, popped, rest⟩ := bind_ok done
    cases rest
    exact .wake line popped

/-! ### The machine -/

inductive MutexEvent (C : Type)
  | dispatch (c : C) (t : Word)
  /-- A thread that slept in `yield` is resumed. -/
  | resume (c : C) (t : Word)
  /-- The CPU's thread switches away outside of the two functions. -/
  | leave (c : C)
  | acquire (c : C)
  | release (c : C)
  | next (c : C)

/-- One step. The scheduler resumes a thread only when its state is `RUNNABLE`; the mutex is released
by the thread whose `acquire_mutex` returned. -/
inductive MutexStep (L : Layout) (held : Word → Prop) :
    MutexSys C → MutexEvent C → MutexSys C → Prop
  | dispatch {s : MutexSys C} {c : C} {t : Word} (free : s.on c = none) (isHeld : held t)
      (elsewhere : ∀ d, s.on d ≠ some t)
      (ready : s.pc t = .outside ∨ ∃ before, s.pc t = .locked c before) :
      MutexStep L held s (.dispatch c t) { s with on := Function.update s.on c (some t) }
  | resume {s : MutexSys C} {c : C} {t : Word} (free : s.on c = none)
      (elsewhere : ∀ d, s.on d ≠ some t) (asleep : s.pc t = .asleep)
      (runnable : Runnable s.phys.mem t) :
      MutexStep L held s (.resume c t)
        { s.goto t .recheck with on := Function.update s.on c (some t) }
  | leave {s : MutexSys C} {c : C} {t : Word} (here : s.on c = some t)
      (out : s.pc t = .outside ∨ ∃ before, s.pc t = .locked c before) :
      MutexStep L held s (.leave c) { s with on := Function.update s.on c none }
  | acquire {s : MutexSys C} {c : C} {t : Word} (here : s.on c = some t) (out : s.pc t = .outside) :
      MutexStep L held s (.acquire c) (s.goto t .check)
  | release {s : MutexSys C} {c : C} {t : Word} {before : BitVec 32} (here : s.on c = some t)
      (has : s.pc t = .locked c before) :
      MutexStep L held s (.release c) (s.goto t (s.releaseMutex c before))
  | next {s s' : MutexSys C} {c : C} {t : Word} (here : s.on c = some t) (busy : (s.pc t).Busy)
      (done : s.next L c t = .ok s') : MutexStep L held s (.next c) s'

/-- **An initialised mutex** that no thread uses: `is_locked` is zero, whatever the three bytes after it
are, and no thread waits. -/
structure MutexFresh (L : Layout) (held : Word → Prop) (s : MutexSys C) (free : List Word) :
    Prop where
  list : FreeList L s.phys free
  page : ∀ t, held t → IsPage L t ∧ t ∉ free
  unlocked : s.isLocked = 0
  empty : s.threadList = 0
  none : s.queued = []
  on : ∀ c, s.on c = Option.none
  pc : ∀ t, s.pc t = .outside

/-! ### The waiting list in memory -/

/-- **The waiting list**: its nodes are pages that are neither free nor thread pages, and it holds the
threads `queued`, in order. -/
structure WaitList (L : Layout) (held : Word → Prop) (phys : Phys) (threadList : Word)
    (queued free : List Word) (nodes : List (Word × Word)) : Prop where
  list : FreeList L phys free
  queue : Queue phys.mem threadList nodes
  pages : NodePages L nodes
  notFree : ∀ x ∈ nodes, x.1 ∉ free
  threads : ∀ t, held t → IsPage L t ∧ t ∉ free ∧ ∀ x ∈ nodes, x.1 ≠ t
  data : nodes.map Prod.snd = queued
  isHeld : ∀ t ∈ queued, held t

section WaitList

variable {L : Layout} {held : Word → Prop} {phys phys' : Phys} {threadList list' t : Word}
  {queued free : List Word} {nodes : List (Word × Word)}

omit [DecidableEq C] in
theorem MutexFresh.waitList {s : MutexSys C} (fresh : MutexFresh L held s free) :
    WaitList L held s.phys s.threadList s.queued free [] where
  list := fresh.list
  queue := ⟨fresh.empty, .nil, nofun⟩
  pages := ⟨nofun, List.nodup_nil⟩
  notFree := nofun
  threads t isHeld := ⟨(fresh.page t isHeld).1, (fresh.page t isHeld).2, nofun⟩
  data := fresh.none.symm
  isHeld := by
    rw [fresh.none]
    nofun

theorem WaitList.eq_zero_iff (waits : WaitList L held phys threadList queued free nodes) :
    threadList = 0 ↔ queued = [] := by
  rw [← waits.data, waits.queue.head_eq]
  rcases nodes with _ | ⟨x, rest⟩
  · exact iff_of_true rfl rfl
  · exact iff_of_false (waits.pages.page x List.mem_cons_self).ne_zero (List.cons_ne_nil _ _)

/-- The state of a thread is not in a page of the list. -/
theorem threadState_others {ps : List Word} {m m' : Mem} (only : OnlyPages ps m m')
    (aligned : ∀ p ∈ ps, PageAligned p) (page : PageAligned t) (apart : t ∉ ps) :
    threadState m' t = threadState m t :=
  only.load32 aligned page apart (by omega)

/-- **A push appends the thread.** -/
theorem WaitList.push {f : Word} (waits : WaitList L held phys threadList queued (f :: free) nodes)
    (isHeld : held t) :
    ∃ list' phys', pushThreadList threadList t phys = .ok (list', phys') ∧
      WaitList L held phys' list' (queued ++ [t]) free (nodes ++ [(f, t)]) ∧
      ∀ u, held u → threadState phys'.mem u = threadState phys.mem u := by
  have pageF := waits.list.page f List.mem_cons_self
  have notFree := (List.nodup_cons.mp waits.list.nodup).1
  obtain ⟨list', phys', done, list, queue, only⟩ :=
    pushThreadList_spec t waits.list waits.queue waits.pages waits.notFree
  have notNode : f ∉ nodes.map Prod.fst := by
    intro member
    obtain ⟨x, inside, same⟩ := List.mem_map.mp member
    exact waits.notFree x inside (same ▸ List.mem_cons_self)
  refine ⟨list', phys', done, ⟨list, queue, ⟨?_, ?_⟩, ?_, ?_, ?_, ?_⟩, ?_⟩
  · rw [List.forall_mem_append, List.forall_mem_singleton]
    exact ⟨waits.pages.page, pageF⟩
  · rw [List.map_append]
    refine List.nodup_append.mpr ⟨waits.pages.nodup, List.nodup_singleton f, ?_⟩
    rintro p member q new rfl
    have same : p = f := List.mem_singleton.mp new
    exact notNode (same ▸ member)
  · rw [List.forall_mem_append, List.forall_mem_singleton]
    exact ⟨fun x member inside => waits.notFree x member (List.mem_cons_of_mem f inside), notFree⟩
  · intro u heldU
    obtain ⟨page, away, apart⟩ := waits.threads u heldU
    rw [List.forall_mem_append, List.forall_mem_singleton]
    exact ⟨page, fun inside => away (List.mem_cons_of_mem f inside), apart,
      fun same => away (same ▸ List.mem_cons_self)⟩
  · rw [List.map_append, waits.data]
    rfl
  · rw [List.forall_mem_append, List.forall_mem_singleton]
    exact ⟨waits.isHeld, isHeld⟩
  · intro u heldU
    obtain ⟨page, away, apart⟩ := waits.threads u heldU
    refine threadState_others only ?_ page.aligned fun inside => ?_
    · exact List.forall_mem_cons.mpr ⟨pageF.aligned, waits.pages.aligned⟩
    · rcases List.mem_cons.mp inside with same | node
      · exact away (same ▸ List.mem_cons_self)
      · obtain ⟨x, member, same⟩ := List.mem_map.mp node
        exact apart x member same

/-- A push that returns had a free page. -/
theorem WaitList.pushed (waits : WaitList L held phys threadList queued free nodes)
    (isHeld : held t) (done : pushThreadList threadList t phys = .ok (list', phys')) :
    (∃ free' nodes', WaitList L held phys' list' (queued ++ [t]) free' nodes') ∧
      ∀ u, held u → threadState phys'.mem u = threadState phys.mem u := by
  rcases free with _ | ⟨f, free⟩
  · rw [pushThreadList_exhausted waits.list] at done
    cases done
  · obtain ⟨_, _, again, waits', same⟩ := waits.push isHeld
    cases again.symm.trans done
    exact ⟨⟨_, _, waits'⟩, same⟩

/-- **A change of a thread's state** leaves the list alone. -/
theorem WaitList.change (waits : WaitList L held phys threadList queued free nodes)
    (isHeld : held t) (state : SchedState) :
    WaitList L held { phys with mem := changeThreadState phys.mem t state } threadList queued free
        nodes ∧
      ∀ u, held u → threadState (changeThreadState phys.mem t state) u =
        if u = t then state.raw else threadState phys.mem u := by
  obtain ⟨page, away, apart⟩ := waits.threads t isHeld
  have only := changeThreadState_only phys.mem t state
  refine ⟨{ waits with list := waits.list.other page.aligned away only, queue := ?_ }, ?_⟩
  · refine waits.queue.others waits.pages (List.forall_mem_singleton.mpr page.aligned) ?_
      (only.pages (List.mem_singleton_self t))
    intro p member same
    obtain ⟨x, inside, rfl⟩ := List.mem_map.mp member
    exact apart x inside (List.mem_singleton.mp same)
  · exact fun u heldU => threadState_change _ _ page.aligned (waits.threads u heldU).1.aligned

/-- **A pop takes the first thread, and empties the list.** -/
theorem WaitList.pop (waits : WaitList L held phys threadList queued free nodes)
    (waiting : queued ≠ []) :
    ∃ thread rest phys' free', queued = thread :: rest ∧
      popThreadList L threadList phys = .ok (thread, 0, phys') ∧
      WaitList L held phys' 0 [] free' [] ∧
      ∀ u, held u → threadState phys'.mem u = threadState phys.mem u := by
  rcases nodes with _ | ⟨first, rest⟩
  · exact absurd waits.data.symm waiting
  · have page := waits.pages.page first List.mem_cons_self
    have notFree := waits.notFree first List.mem_cons_self
    obtain ⟨phys', done, list, only⟩ := popThreadList_spec waits.list waits.queue page notFree
    have away : ∀ u, held u → u ≠ first.1 := fun u heldU same =>
      (waits.threads u heldU).2.2 first List.mem_cons_self same.symm
    refine ⟨first.2, rest.map Prod.snd, phys', first.1 :: free, waits.data.symm, done,
      ⟨list, ⟨rfl, .nil, nofun⟩, ⟨nofun, List.nodup_nil⟩, nofun, ?_, rfl, nofun⟩, ?_⟩
    · intro u heldU
      obtain ⟨pageU, awayU, -⟩ := waits.threads u heldU
      exact ⟨pageU, List.not_mem_cons_of_ne_of_not_mem (away u heldU) awayU, nofun⟩
    · intro u heldU
      refine threadState_others (only.pages (List.mem_singleton_self first.1))
        (List.forall_mem_singleton.mpr page.aligned) (waits.threads u heldU).1.aligned ?_
      exact fun same => away u heldU (List.mem_singleton.mp same)

end WaitList

end ShipOS
