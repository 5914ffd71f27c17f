/-
**The run queues over whole runs.**

A run is any sequence of the scheduler's calls on any CPUs, each one atomic step, from the state that
`sched_init_cpu` leaves on every CPU. Threads are added only while they are in no queue and not the
current thread of a CPU.

* `SchedInv` — the run-queue invariant, with the threads that were added and not yet removed or
  exited; `SchedInv.step`: every call keeps it;
* `SchedInv.returns` — every call returns, `sched_add_thread` when there is a free page;
* `runQueues_of_run` — both hold after every run.
-/

import ShipOS.Lib.Runs
import ShipOS.Sched.Calls

namespace ShipOS

open ByteMem Ring Runs

variable {n : Nat} {L : Layout} {held : Word → Prop} {s s' : Sched n} {free : List Word}
  {nodes nodes' : Fin (n + 1) → List (Word × Word)} {c : Fin (n + 1)}

/-! ### Calls -/

/-- The calls of the scheduler; an `exit` names the thread that exits. -/
inductive SchedCall (n : Nat)
  | add (t : Word) (cpuIndex : BitVec 32)
  | remove (t : Word)
  | dispatch (c : Fin (n + 1))
  | yield (c : Fin (n + 1))
  | exit (c : Fin (n + 1)) (t : Word)
  | balance

def SchedCall.exec (L : Layout) : SchedCall n → Sched n → Except Halt (Sched n)
  | .add t cpuIndex, s => schedAddThread t cpuIndex s
  | .remove t, s => schedRemoveThread L t s
  | .dispatch c, s => Prod.snd <$> schedDispatch c s
  | .yield c, s => .ok (schedYield c s).2
  | .exit c _, s => Prod.snd <$> schedExit L c s
  | .balance, s => schedBalance L s

/-- The thread is on a node of the ring that CPU `c`'s `run_queue` points to. -/
def InQueue (s : Sched n) (c : Fin (n + 1)) (t : Word) : Prop :=
  (s.cpus c).runQueue ≠ 0 ∧ ∃ q x, Queue s.phys.mem (s.cpus c).runQueue q ∧ (x, t) ∈ q

/-- Who may be added: a thread that is not idle, in no queue and not current. -/
def SchedCall.Allowed (held : Word → Prop) (s : Sched n) : SchedCall n → Prop
  | .add t _ => held t ∧ (∀ d, t ≠ (s.cpus d).idleThread) ∧ (∀ c, ¬ InQueue s c t) ∧
      ∀ d, t ≠ (s.cpus d).currentThread
  | .exit c t => t = (s.cpus c).currentThread
  | _ => True

/-- One call, one atomic step. -/
structure SchedStep (L : Layout) (held : Word → Prop) (s : Sched n) (call : SchedCall n)
    (s' : Sched n) : Prop where
  allowed : call.Allowed held s
  done : call.exec L s = .ok s'

/-- The threads that were added and not yet removed or exited. -/
def liveAfter (live : Word → Prop) : SchedCall n → Word → Prop
  | .add t _ => fun u => live u ∨ u = t
  | .remove t => fun u => live u ∧ u ≠ t
  | .exit _ t => fun u => live u ∧ u ≠ t
  | _ => live

/-- **What `sched_init_cpu` leaves on every CPU**: an empty queue, no current thread and an idle
thread of its own. The pages of the threads, idle or not, are allocated. -/
structure SchedFresh (L : Layout) (held : Word → Prop) (s : Sched n) (free : List Word) : Prop where
  list : FreeList L s.phys free
  page : ∀ t, held t → IsPage L t ∧ t ∉ free
  queue : ∀ c, (s.cpus c).runQueue = 0
  count : ∀ c, (s.cpus c).numThreads = 0
  current : ∀ c, (s.cpus c).currentThread = 0
  idleHeld : ∀ c, held (s.cpus c).idleThread
  idleApart : ∀ c d, (s.cpus c).idleThread = (s.cpus d).idleThread → c = d

theorem SchedFresh.queues (fresh : SchedFresh L held s free) :
    Queues L held s free fun _ => [] where
  occupancy := by
    refine ⟨by simp, by simp, by simp, by simp, fun t isHeld => ?_⟩
    obtain ⟨page, notFree⟩ := fresh.page t isHeld
    exact ⟨page, notFree, by simp⟩
  list := fresh.list
  queue c := ⟨fresh.queue c, IsRing.nil, by simp⟩
  count c := by rw [fresh.count c]; rfl
  idleHeld := fresh.idleHeld
  notIdle := by simp

/-! ### The invariant -/

/-- **The invariant of the run queues**: the rings of `Queues`; a thread that is current on a CPU is
in no other CPU's queue; and the queued threads are the live ones. -/
structure SchedInv (L : Layout) (held : Word → Prop) (s : Sched n) (live : Word → Prop)
    (free : List Word) (nodes : Fin (n + 1) → List (Word × Word)) : Prop where
  queues : Queues L held s free nodes
  current : ∀ c, (s.cpus c).currentThread = 0 ∨ held (s.cpus c).currentThread
  home : ∀ c d, At nodes d (s.cpus c).currentThread → d = c
  live_iff : ∀ u, live u ↔ ∃ c, At nodes c u

theorem Queues.at_held (inv : Queues L held s free nodes) {t : Word} (here : At nodes c t) :
    held t := by
  obtain ⟨x, member⟩ := here
  exact inv.occupancy.queued c _ member

/-- A thread is in one queue at most. -/
theorem Queues.at_unique (inv : Queues L held s free nodes) {t : Word} {d : Fin (n + 1)}
    (here : At nodes c t) (there : At nodes d t) : c = d := by
  obtain ⟨x, memberX⟩ := here
  obtain ⟨y, memberY⟩ := there
  exact (inv.occupancy.unique c d _ memberX _ memberY (.inr rfl)).1

theorem Queues.at_not_idle (inv : Queues L held s free nodes) {t : Word} (here : At nodes c t)
    (d : Fin (n + 1)) : t ≠ (s.cpus d).idleThread := by
  obtain ⟨x, member⟩ := here
  exact inv.notIdle c d _ member

theorem Queues.held_ne_zero (inv : Queues L held s free nodes) {t : Word} (isHeld : held t) :
    t ≠ 0 := (inv.occupancy.apart t isHeld).1.ne_zero

/-- **The ring at `run_queue` has the threads of `nodes`**, wherever it is read. -/
theorem Rings.inQueue_iff (inv : Rings L held s free nodes) {t : Word} :
    InQueue s c t ↔ At nodes c t := (inv.queue c).holds_iff (inv.room.pages c)

theorem Queues.inQueue_iff (inv : Queues L held s free nodes) {t : Word} :
    InQueue s c t ↔ At nodes c t := inv.rings.inQueue_iff

/-! ### Every call keeps the invariant -/

variable {live : Word → Prop}

theorem SchedFresh.inv (fresh : SchedFresh L held s free) :
    SchedInv L held s (fun _ => False) free fun _ => [] where
  queues := fresh.queues
  current c := .inl (fresh.current c)
  home := by simp [At]
  live_iff := by simp [At]

section Steps

variable (inv : SchedInv L held s live free nodes)

include inv

/-- A call that leaves the records alone but for the queues, which keep the current threads home. -/
theorem SchedInv.sameCpus {live' : Word → Prop} {free' : List Word}
    (queues : Queues L held s' free' nodes') (cpus : SameCpus s s')
    (home : ∀ c d, At nodes' d (s.cpus c).currentThread → d = c)
    (live_iff : ∀ u, live' u ↔ ∃ c, At nodes' c u) : SchedInv L held s' live' free' nodes' := by
  refine ⟨queues, fun c => ?_, fun c d => ?_, live_iff⟩
  · rw [cpus.current]
    exact inv.current c
  · rw [cpus.current]
    exact home c d

theorem SchedInv.add {t : Word} {cpuIndex : BitVec 32}
    (allowed : (SchedCall.add t cpuIndex).Allowed held s)
    (done : schedAddThread t cpuIndex s = .ok s') :
    ∃ free' nodes', SchedInv L held s' (fun u => live u ∨ u = t) free' nodes' := by
  obtain ⟨isHeld, notIdle, unqueued, notCurrent⟩ := allowed
  obtain ⟨d, f, free', -, queues, cpus, -⟩ := schedAddThread_spec inv.queues isHeld
    (unqueued_iff.mpr fun c here => unqueued c (inv.queues.inQueue_iff.mpr here)) notIdle done
  refine ⟨free', _, inv.sameCpus queues cpus (fun c e here => ?_) fun u => ?_⟩
  · rcases at_push.mp here with was | ⟨-, same⟩
    · exact inv.home c e was
    · exact absurd same.symm (notCurrent c)
  · simp only [at_push, exists_or, ← inv.live_iff u, exists_eq_left]

theorem SchedInv.remove {t : Word} (done : schedRemoveThread L t s = .ok s') :
    ∃ free' nodes', SchedInv L held s' (fun u => live u ∧ u ≠ t) free' nodes' := by
  obtain ⟨_, free', done', queues, cpus, -⟩ := schedRemoveThread_spec inv.queues t
  rw [done] at done'
  cases done'
  have split : ∀ d u, At (fun c => without t (nodes c)) d u ↔ At nodes d u ∧ u ≠ t := by
    simp [At, without]
  refine ⟨free', _, inv.sameCpus queues cpus (fun c d here => ?_) fun u => ?_⟩
  · exact inv.home c d ((split d _).mp here).1
  · simp only [split, exists_and_right, ← inv.live_iff u]

theorem SchedInv.dispatch {next : Word} (done : schedDispatch c s = .ok (next, s')) :
    ∃ free' nodes', SchedInv L held s' live free' nodes' := by
  obtain ⟨_, _, nodes', done', queues, same, cpus, isHeld, origin, -⟩ :=
    schedDispatch_spec inv.queues c
  rw [done] at done'
  cases done'
  refine ⟨free, nodes', queues, fun d => ?_, fun d e here => ?_, fun u => ?_⟩
  · by_cases this : d = c
    · rw [this, cpus.here]
      exact .inr isHeld
    · rw [cpus.other d this]
      exact inv.current d
  · rw [same] at here
    by_cases this : d = c
    · rw [this, cpus.here] at here
      rcases origin with idle | ⟨queued, -⟩
      · exact absurd idle (inv.queues.at_not_idle here c)
      · exact (inv.queues.at_unique here queued).trans this.symm
    · rw [cpus.other d this] at here
      exact inv.home d e here
  · rw [inv.live_iff u]
    exact exists_congr fun d => (same d u).symm

theorem SchedInv.yield {switched : Bool} (done : schedYield c s = (switched, s')) :
    ∃ free' nodes', SchedInv L held s' live free' nodes' := by
  by_cases stays : (s.cpus c).currentThread = 0 ∨ (s.cpus c).currentThread = (s.cpus c).idleThread
  · have same := (if_pos stays).symm.trans done
    cases same
    exact ⟨free, nodes, inv⟩
  · obtain ⟨notNull, notIdle⟩ := not_or.mp stays
    obtain ⟨_, done', queues, cpus, -⟩ :=
      schedYield_spec inv.queues c ((inv.current c).resolve_left notNull) notIdle
    rw [done] at done'
    cases done'
    exact ⟨free, nodes, inv.sameCpus queues cpus inv.home inv.live_iff⟩

theorem SchedInv.exit {switched : Bool} (done : schedExit L c s = .ok (switched, s')) :
    ∃ free' nodes',
      SchedInv L held s' (fun u => live u ∧ u ≠ (s.cpus c).currentThread) free' nodes' := by
  by_cases stays : (s.cpus c).currentThread = 0 ∨ (s.cpus c).currentThread = (s.cpus c).idleThread
  · have same := (if_pos stays).symm.trans done
    cases same
    refine ⟨free, nodes, inv.queues, inv.current, inv.home, fun u => ?_⟩
    rw [← inv.live_iff u, and_iff_left_iff_imp]
    rintro alive rfl
    obtain ⟨d, here⟩ := (inv.live_iff _).mp alive
    exact stays.elim (inv.queues.held_ne_zero (inv.queues.at_held here))
      (inv.queues.at_not_idle here c)
  · obtain ⟨notNull, notIdle⟩ := not_or.mp stays
    obtain ⟨_, free', done', queues, cpus, -⟩ :=
      schedExit_spec inv.queues c ((inv.current c).resolve_left notNull) notIdle
    rw [done] at done'
    cases done'
    refine ⟨free', _, queues, fun d => ?_, fun d e here => ?_, fun u => ?_⟩
    · by_cases this : d = c
      · rw [this, cpus.here]
        exact .inl rfl
      · rw [cpus.other d this]
        exact inv.current d
    · have was := (at_without.mp here).1
      by_cases this : d = c
      · rw [this, cpus.here] at was
        exact absurd rfl (inv.queues.held_ne_zero (inv.queues.at_held was))
      · rw [cpus.other d this] at was
        exact inv.home d e was
    · -- The thread was in no queue but its own CPU's.
      rw [inv.live_iff u]
      constructor
      · rintro ⟨⟨d, was⟩, other⟩
        exact ⟨d, at_without.mpr ⟨was, fun both => other both.2⟩⟩
      · rintro ⟨d, here⟩
        obtain ⟨was, notExited⟩ := at_without.mp here
        refine ⟨⟨d, was⟩, ?_⟩
        rintro rfl
        exact notExited ⟨inv.home c d was, rfl⟩

theorem SchedInv.balance (done : schedBalance L s = .ok s') :
    ∃ free' nodes', SchedInv L held s' live free' nodes' := by
  obtain ⟨_, free', nodes', done', queues, cpus, -, effect⟩ := schedBalance_spec inv.queues
  rw [done] at done'
  cases done'
  rcases effect with same | ⟨src, dst, t, here, notCurrent, -, moved⟩
  · refine ⟨free', nodes', inv.sameCpus queues cpus (fun c d at' => ?_) fun u => ?_⟩
    · exact inv.home c d ((same d _).mp at')
    · rw [inv.live_iff u]
      exact exists_congr fun d => (same d u).symm
  · refine ⟨free', nodes', inv.sameCpus queues cpus (fun c d at' => ?_) fun u => ?_⟩
    · rcases (moved d _).mp at' with ⟨was, -⟩ | ⟨-, same⟩
      · exact inv.home c d was
      · -- A current thread is in its own CPU's queue only, and that CPU does not give it away.
        subst same
        exact absurd (congrArg (fun e => (s.cpus e).currentThread) (inv.home c src here)).symm
          notCurrent
    · rw [inv.live_iff u]
      by_cases same : u = t
      · subst same
        exact iff_of_true ⟨src, here⟩ ⟨dst, (moved dst u).mpr (.inr ⟨rfl, rfl⟩)⟩
      · simp [moved, same]

/-- **Every call keeps the invariant.** -/
theorem SchedInv.step {call : SchedCall n} (step : SchedStep L held s call s') :
    ∃ free' nodes', SchedInv L held s' (liveAfter live call) free' nodes' := by
  obtain ⟨allowed, done⟩ := step
  cases call with
  | add t cpuIndex => exact inv.add allowed done
  | remove t => exact inv.remove done
  | dispatch c =>
    obtain ⟨next, _, _, dispatched, -⟩ := schedDispatch_spec inv.queues c
    rw [SchedCall.exec, dispatched] at done
    cases done
    exact inv.dispatch dispatched
  | yield c =>
    cases done
    exact inv.yield (Prod.eta _).symm
  | exit c t =>
    subst allowed
    rw [SchedCall.exec] at done
    cases exited : schedExit L c s with
    | error e =>
      rw [exited] at done
      cases done
    | ok result =>
      rw [exited] at done
      cases done
      exact inv.exit exited
  | balance => exact inv.balance done

/-- **Every call returns**; a thread can be added when there is a free page for its node. -/
theorem SchedInv.returns (call : SchedCall n) (allowed : call.Allowed held s)
    (enough : ∀ t cpuIndex, call = .add t cpuIndex →
      free ≠ [] ∧ (cpuIndex.toInt < 0 ∨ cpuIndex.toNat < n + 1)) :
    ∃ s', SchedStep L held s call s' := by
  cases call with
  | add t cpuIndex =>
    obtain ⟨more, valid⟩ := enough t cpuIndex rfl
    obtain ⟨isHeld, notIdle, unqueued, -⟩ := id allowed
    obtain ⟨f, free', rfl⟩ := List.exists_cons_of_ne_nil more
    have unqueued' : Unqueued nodes t :=
      unqueued_iff.mpr fun c here => unqueued c (inv.queues.inQueue_iff.mpr here)
    have added := fun d => addTo_spec inv.queues isHeld unqueued' notIdle d
    obtain ⟨d, same⟩ := schedAddThread_eq (s := s) (inv.queues.held_ne_zero isHeld) valid
    obtain ⟨s', done, -⟩ := added d
    exact ⟨s', allowed, same.trans done⟩
  | remove t =>
    obtain ⟨s', _, done, -⟩ := schedRemoveThread_spec inv.queues t
    exact ⟨s', allowed, done⟩
  | dispatch c =>
    obtain ⟨next, s', _, done, -⟩ := schedDispatch_spec inv.queues c
    exact ⟨s', allowed, by rw [SchedCall.exec, done]; rfl⟩
  | yield c => exact ⟨_, allowed, rfl⟩
  | exit c t =>
    by_cases stays :
        (s.cpus c).currentThread = 0 ∨ (s.cpus c).currentThread = (s.cpus c).idleThread
    · have done : schedExit L c s = .ok (false, s) := if_pos stays
      exact ⟨s, allowed, by rw [SchedCall.exec, done]; rfl⟩
    · obtain ⟨notNull, notIdle⟩ := not_or.mp stays
      obtain ⟨s', _, done, -⟩ :=
        schedExit_spec inv.queues c ((inv.current c).resolve_left notNull) notIdle
      exact ⟨s', allowed, by rw [SchedCall.exec, done]; rfl⟩
  | balance =>
    obtain ⟨s', _, _, done, -⟩ := schedBalance_spec inv.queues
    exact ⟨s', allowed, done⟩

end Steps

/-! ### Runs -/

/-- **The run queues after any run**: rings of as many allocated pages as `num_threads` says, one
position for each thread, and the queued threads are those added and not yet removed or exited. No
further call fails. -/
theorem runQueues_of_run (fresh : SchedFresh L held s free) {calls : List (SchedCall n)}
    (run : Run (SchedStep L held) s calls s') :
    ∃ (free' : List Word) (nodes : Fin (n + 1) → List (Word × Word)), FreeList L s'.phys free' ∧
      (∀ c, Queue s'.phys.mem (s'.cpus c).runQueue (nodes c) ∧
        (s'.cpus c).numThreads.toNat = (nodes c).length ∧
        ((nodes c).map Prod.fst).Nodup ∧ ∀ x ∈ nodes c, IsPage L x.1 ∧ x.1 ∉ free') ∧
      (∀ c d, ∀ x ∈ nodes c, ∀ y ∈ nodes d, x.1 = y.1 ∨ x.2 = y.2 → c = d ∧ x = y) ∧
      (∀ t, (∃ c, InQueue s' c t) ↔ calls.foldl liveAfter (fun _ => False) t) ∧
      ∀ call : SchedCall n, call.Allowed held s' →
        (∀ t cpuIndex, call = .add t cpuIndex →
          free' ≠ [] ∧ (cpuIndex.toInt < 0 ∨ cpuIndex.toNat < n + 1)) →
        ∃ s'', SchedStep L held s' call s'' := by
  obtain ⟨free', nodes, inv⟩ := run.simulates
    (fun s live => ∃ free nodes, SchedInv L held s live free nodes) liveAfter
    (fun _ _ _ _ ⟨_, _, inv⟩ step => inv.step step) ⟨free, _, fresh.inv⟩
  have occ := inv.queues.occupancy
  refine ⟨free', nodes, inv.queues.list, fun c => ⟨inv.queues.queue c, inv.queues.count c,
    (inv.queues.pages c).nodup, occ.page c⟩, occ.unique, fun t => ?_,
    fun call allowed enough => inv.returns call allowed enough⟩
  rw [inv.live_iff t]
  exact exists_congr fun c => inv.queues.inQueue_iff

/-- Two CPUs with the idle threads `0x200000` and `0x201000`, and one free page. -/
def demoSched : Sched 1 where
  phys := ⟨fun _ => 0, 0x203000⟩
  cpus c := { currentThread := 0, idleThread := if c = 0 then 0x200000 else 0x201000,
              runQueue := 0, numThreads := 0, started := true }

/-- Three threads, the idle ones among them. -/
def demoHeld (t : Word) : Prop := t = 0x200000 ∨ t = 0x201000 ∨ t = 0x202000

theorem demoSched_fresh : SchedFresh demoLayout demoHeld demoSched [0x203000] where
  list := ⟨by decide +kernel, by decide, List.forall_mem_singleton.mpr (by decide)⟩
  page := by
    rintro t (rfl | rfl | rfl)
    · exact ⟨by decide, by decide⟩
    · exact ⟨by decide, by decide⟩
    · exact ⟨by decide, by decide⟩
  queue _ := rfl
  count _ := rfl
  current _ := rfl
  idleHeld c := by
    by_cases first : c = 0
    · exact .inl (if_pos first)
    · exact .inr (.inl (if_neg first))
  idleApart := by decide

/-- A thread is added to the second CPU and dispatched there. -/
theorem runQueues_of_run_dispatch :
    ∃ s', Run (SchedStep demoLayout demoHeld) demoSched [.add 0x202000 1, .dispatch 1] s' ∧
      ∀ t, (∃ c, InQueue s' c t) ↔ t = 0x202000 := by
  have allowed : (SchedCall.add 0x202000 1).Allowed demoHeld demoSched :=
    ⟨.inr (.inr rfl), by decide, fun _ queued => queued.1 rfl, by decide⟩
  obtain ⟨s₁, added⟩ := demoSched_fresh.inv.returns _ allowed
    (by rintro _ _ ⟨⟩; exact ⟨List.cons_ne_nil _ _, .inr (by decide)⟩)
  obtain ⟨_, _, inv₁⟩ := demoSched_fresh.inv.step added
  obtain ⟨s₂, dispatched⟩ := inv₁.returns (.dispatch 1) trivial nofun
  have run := Run.cons added (.cons dispatched (.nil s₂))
  obtain ⟨_, _, -, -, -, queued, -⟩ := runQueues_of_run demoSched_fresh run
  exact ⟨s₂, run, fun t => (queued t).trans (iff_of_eq (false_or _))⟩

end ShipOS
