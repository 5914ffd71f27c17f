/-
**Round robin: a `RUNNABLE` thread is overtaken by each other thread at most once.**

`sched_get_next` calls on one CPU, interleaved with additions, removals and state changes of threads.
The head pointer moves behind the thread that was returned and new threads go in before the head, so
whatever is returned before `t` was between the head and `t`, and does not come back there.

* `Queues.waiting_getNext` — one call, by the rules of `RoundRobin.Waiting`;
* `bypass_of_run` — whole runs.
-/

import ShipOS.Lib.Scheduling
import ShipOS.Sched.RunQueues

namespace ShipOS

open ByteMem Ring Runs RoundRobin

variable {n : Nat} {L : Layout} {held : Word → Prop} {s s' : Sched n} {free : List Word}
  {nodes : Fin (n + 1) → List (Word × Word)} {c : Fin (n + 1)} {t : Word}

/-! ### Steps -/

/-- The calls on the queue of a CPU, with the thread that `sched_get_next` returns. -/
inductive QueueEvent
  | getNext (t : Word)
  | add (t : Word) (cpuIndex : BitVec 32)
  | remove (t : Word)
  | setState (t : Word) (state : SchedState)

/-- One call on CPU `c`'s queue. -/
inductive QueueStep (L : Layout) (held : Word → Prop) (c : Fin (n + 1)) :
    Sched n → QueueEvent → Sched n → Prop
  | getNext {s : Sched n} {t : Word} {cpu : PerCpu}
      (done : schedGetNext (s.cpus c) s.phys.mem = .ok (t, cpu)) :
      QueueStep L held c s (.getNext t) (s.set c cpu s.phys)
  | add {s s' : Sched n} {t : Word} {cpuIndex : BitVec 32} (isHeld : held t)
      (notIdle : ∀ d, t ≠ (s.cpus d).idleThread) (unqueued : ∀ d, ¬ InQueue s d t)
      (done : schedAddThread t cpuIndex s = .ok s') : QueueStep L held c s (.add t cpuIndex) s'
  | remove {s s' : Sched n} {t : Word} (done : schedRemoveThread L t s = .ok s') :
      QueueStep L held c s (.remove t) s'
  | setState {s : Sched n} {t : Word} {state : SchedState} (isHeld : held t) :
      QueueStep L held c s (.setState t state)
        { s with phys := { s.phys with mem := changeThreadState s.phys.mem t state } }

/-- The call neither removes the thread nor changes its state. -/
def QueueEvent.Spares (t : Word) : QueueEvent → Prop
  | .remove u => u ≠ t
  | .setState u _ => u ≠ t
  | _ => True

/-- The threads returned by `sched_get_next`, in order. -/
def returnedAfter (returned : List Word) : QueueEvent → List Word
  | .getNext t => returned ++ [t]
  | _ => returned

/-! ### Every call keeps the queues -/

theorem Queues.queueStep {event : QueueEvent} (inv : Queues L held s free nodes)
    (step : QueueStep L held c s event s') : ∃ free' nodes', Queues L held s' free' nodes' := by
  cases step with
  | getNext done =>
    obtain ⟨_, _, nodes', done', -, -, queues, -⟩ := schedGetNext_any inv c
    rw [done] at done'
    cases done'
    exact ⟨free, nodes', queues⟩
  | add isHeld notIdle unqueued done =>
    obtain ⟨_, _, free', -, queues, -⟩ := schedAddThread_spec inv isHeld
      (unqueued_iff.mpr fun d here => unqueued d (inv.inQueue_iff.mpr here)) notIdle done
    exact ⟨free', _, queues⟩
  | @remove _ u done =>
    obtain ⟨_, free', done', queues, -⟩ := schedRemoveThread_spec inv u
    rw [done] at done'
    cases done'
    exact ⟨free', _, queues⟩
  | @setState t state isHeld =>
    exact ⟨free, nodes, inv.write isHeld (changeThreadState_only s.phys.mem t state)⟩

/-! ### A thread that waits -/

/-- The thread has been returned, or it waits behind at most as many threads as are left of
`bound`. -/
def Served (L : Layout) (held : Word → Prop) (c : Fin (n + 1)) (t : Word) (bound : Nat)
    (s : Sched n) (returned : List Word) : Prop :=
  ∃ free nodes, Queues L held s free nodes ∧
    (t ∈ returned ∨ held t ∧ Runnable s.phys.mem t ∧ Waiting (nodes c) t bound returned)

/-- The threads of the nodes behind a node are others. -/
theorem Queues.once (inv : Queues L held s free nodes) {pre post : List (Word × Word)}
    {x : Word × Word} (here : nodes c = pre ++ x :: post) : ∀ y ∈ post, y.2 ≠ x.2 := by
  intro y later same
  have nodup := inv.occupancy.nodup c
  have unique := inv.occupancy.unique c c
  rw [here] at nodup unique
  have equal := (unique y (List.mem_append_right _ (List.mem_cons_of_mem _ later)) x
    (List.mem_append_right _ List.mem_cons_self) (.inr same)).2
  exact (List.nodup_cons.mp (List.nodup_append.mp nodup).2.1).1 (equal ▸ later)

/-- **One `sched_get_next`** returns `t` or a thread that was ahead of it. -/
theorem Queues.waiting_getNext {next : Word} {cpu : PerCpu} {bound : Nat} {returned : List Word}
    (inv : Queues L held s free nodes) (runnable : Runnable s.phys.mem t)
    (waiting : Waiting (nodes c) t bound returned)
    (done : schedGetNext (s.cpus c) s.phys.mem = .ok (next, cpu)) :
    ∃ nodes', Queues L held (s.set c cpu s.phys) free nodes' ∧
      (next = t ∨ Waiting (nodes' c) t bound (returned ++ [next])) := by
  rcases schedGetNext_spec inv c with
    ⟨idle, -⟩ | ⟨pre, x, post, cpu', here, skipped, -, done', -, -, queues⟩
  · obtain ⟨x, member⟩ := waiting.mem
    exact absurd runnable (idle (x, t) member)
  · rw [done] at done'
    cases done'
    refine ⟨_, queues, ?_⟩
    rw [Function.update_self]
    refine waiting.take here (inv.once here) fun z early same => ?_
    exact skipped z early (same ▸ runnable)

theorem Served.step {bound : Nat} {returned : List Word} {event : QueueEvent}
    (served : Served L held c t bound s returned) (spares : event.Spares t)
    (step : QueueStep L held c s event s') :
    Served L held c t bound s' (returnedAfter returned event) := by
  obtain ⟨free, nodes, inv, before | ⟨heldT, runnable, waiting⟩⟩ := served
  · obtain ⟨free', nodes', queues⟩ := inv.queueStep step
    refine ⟨free', nodes', queues, .inl ?_⟩
    cases step with
    | getNext done => exact List.mem_append_left _ before
    | add | remove | setState => exact before
  · cases step with
    | getNext done =>
      obtain ⟨nodes', queues, returns | later⟩ := inv.waiting_getNext runnable waiting done
      · exact ⟨free, nodes', queues, .inl (List.mem_append_right _ (by simp [returns]))⟩
      · exact ⟨free, nodes', queues, .inr ⟨heldT, runnable, later⟩⟩
    | @add _ u _ isHeld notIdle unqueued done =>
      obtain ⟨d, f, free', -, queues, -, states⟩ := schedAddThread_spec inv isHeld
        (unqueued_iff.mpr fun d here => unqueued d (inv.inQueue_iff.mpr here)) notIdle done
      have different : t ≠ u := by
        rintro rfl
        exact unqueued c (inv.inQueue_iff.mpr waiting.mem)
      refine ⟨free', _, queues, .inr ⟨heldT, ?_, ?_⟩⟩
      · rw [Runnable, states t heldT, if_neg different]
        exact runnable
      · by_cases here : c = d
        · subst here
          rw [Function.update_self]
          exact waiting.push (f, u)
        · rw [Function.update_of_ne here]
          exact waiting
    | @remove _ u done =>
      obtain ⟨_, free', done', queues, -, states⟩ := schedRemoveThread_spec inv u
      rw [done] at done'
      cases done'
      refine ⟨free', _, queues, .inr ⟨heldT, ?_, waiting.drop (Ne.symm spares)⟩⟩
      rw [Runnable, states t heldT]
      exact runnable
    | @setState u state isHeld =>
      refine ⟨free, nodes, inv.write isHeld (changeThreadState_only s.phys.mem u state),
        .inr ⟨heldT, ?_, waiting⟩⟩
      rw [Runnable, threadState_change _ _ (inv.occupancy.apart u isHeld).1.aligned
        (inv.occupancy.apart t heldT).1.aligned, if_neg (Ne.symm spares)]
      exact runnable

/-! ### Runs -/

/-- **Bounded bypass.** While `t` stays queued and `RUNNABLE`, `sched_get_next` returns `t` within as
many calls as there were nodes from the head up to and including `t`, and no thread twice before
it. At every point `sched_get_next` returns, and the idle thread only when no queued thread is
`RUNNABLE`. -/
theorem bypass_of_run (inv : Queues L held s free nodes) {events : List QueueEvent}
    (run : Run (QueueStep L held c) s events s') :
    (∀ pre x t post, nodes c = pre ++ (x, t) :: post → Runnable s.phys.mem t →
      (∀ event ∈ events, event.Spares t) →
      t ∈ events.foldl returnedAfter [] ∨
        (events.foldl returnedAfter []).Nodup ∧
          (events.foldl returnedAfter []).length < pre.length + 1) ∧
    ∃ next cpu, schedGetNext (s'.cpus c) s'.phys.mem = .ok (next, cpu) ∧
      (next = (s'.cpus c).idleThread → ∀ u, InQueue s' c u → ¬ Runnable s'.phys.mem u) := by
  constructor
  · intro pre x t post here runnable spares
    have start : Served L held c t pre.length s [] := by
      refine ⟨free, nodes, inv, .inr ⟨?_, runnable, ?_⟩⟩
      · refine inv.at_held (c := c) ⟨x, ?_⟩
        rw [here]
        exact List.mem_append_right _ List.mem_cons_self
      · rw [here]
        exact waiting_start
    obtain ⟨_, _, -, served⟩ := (run.restrict (QueueEvent.Spares t) spares).simulates
      (Served L held c t pre.length) returnedAfter
      (fun _ _ _ _ served step => served.step step.1 step.2) start
    exact served.imp_right fun waits =>
      ⟨waits.2.2.distinct, Nat.lt_succ_of_le waits.2.2.length_le⟩
  · obtain ⟨free', nodes', inv'⟩ := run.keeps (fun s => ∃ free nodes, Queues L held s free nodes)
      (fun _ _ _ ⟨_, _, inv⟩ step => inv.queueStep step) ⟨free, nodes, inv⟩
    rcases schedGetNext_spec inv' c with
      ⟨idle, done⟩ | ⟨pre, x, post, cpu, here, -, -, done, -⟩
    · refine ⟨_, _, done, fun _ u queued => ?_⟩
      obtain ⟨y, member⟩ := inv'.inQueue_iff.mp queued
      exact idle (y, u) member
    · refine ⟨_, _, done, fun isIdle => absurd isIdle (inv'.notIdle c c x ?_)⟩
      rw [here]
      exact List.mem_append_right _ List.mem_cons_self

/-- One CPU with the idle thread `0x200000`, and two free pages. -/
def pairSched : Sched 0 where
  phys := ⟨store64 (fun _ => 0) 0x203000 0x204000, 0x203000⟩
  cpus _ := { currentThread := 0, idleThread := 0x200000, runQueue := 0, numThreads := 0,
              started := true }

theorem pairSched_fresh : SchedFresh demoLayout demoHeld pairSched [0x203000, 0x204000] where
  list := ⟨by decide +kernel, by decide, by
    simp only [List.forall_mem_cons]
    exact ⟨by decide, by decide, by simp⟩⟩
  page := by
    rintro t (rfl | rfl | rfl)
    · exact ⟨by decide, by decide⟩
    · exact ⟨by decide, by decide⟩
    · exact ⟨by decide, by decide⟩
  queue _ := rfl
  count _ := rfl
  current _ := rfl
  idleHeld _ := .inl rfl
  idleApart := by decide

/-- On the only CPU a thread goes in at the end. -/
theorem add_only {s : Sched 0} {f : Word} {free : List Word}
    {nodes : Fin 1 → List (Word × Word)} (inv : Queues demoLayout demoHeld s (f :: free) nodes)
    (isHeld : demoHeld t) (unqueued : Unqueued nodes t) (notIdle : ∀ d, t ≠ (s.cpus d).idleThread) :
    ∃ s', QueueStep demoLayout demoHeld 0 s (.add t 0) s' ∧
      Queues demoLayout demoHeld s' free (Function.update nodes 0 (nodes 0 ++ [(f, t)])) ∧
      SameCpus s s' ∧ ∀ u, demoHeld u → threadState s'.phys.mem u =
        if u = t then SchedState.runnable.raw else threadState s.phys.mem u := by
  have thread : t ≠ 0 := by
    rcases isHeld with rfl | rfl | rfl <;> decide
  obtain ⟨d, chosen⟩ : ∃ d, schedAddThread t 0 s = addTo d t s :=
    schedAddThread_eq thread (.inr (by decide))
  obtain rfl : d = 0 := Fin.ext (by omega)
  obtain ⟨s', added, spec⟩ := addTo_spec inv isHeld unqueued notIdle 0
  refine ⟨s', .add isHeld notIdle (fun d queued => ?_) (chosen.trans added), spec⟩
  exact unqueued_iff.mp unqueued d (inv.inQueue_iff.mp queued)

/-- Of two threads in the queue the first is returned by the first call, and the second, which is
passed over once, by the second. -/
theorem bypass_of_run_added :
    ∃ s, Run (QueueStep demoLayout demoHeld 0) pairSched
      [.add 0x201000 0, .add 0x202000 0, .getNext 0x201000, .getNext 0x202000] s := by
  have isHeld : demoHeld 0x201000 ∧ demoHeld 0x202000 := ⟨.inr (.inl rfl), .inr (.inr rfl)⟩
  have empty : Unqueued (n := 0) (fun _ => []) 0x201000 :=
    fun _ _ member => absurd member List.not_mem_nil
  obtain ⟨s₁, added₁, inv₁, cpus₁, states₁⟩ :=
    add_only pairSched_fresh.queues isHeld.1 empty (by decide)
  have other : Unqueued (n := 0) (Function.update (fun _ => []) 0 ([] ++ [(0x203000, 0x201000)]))
      0x202000 := by
    intro c
    obtain rfl : c = 0 := Fin.ext (by omega)
    simp
  have notIdle : ∀ d, (0x202000 : Word) ≠ (s₁.cpus d).idleThread := by
    intro d
    rw [cpus₁.idle d]
    exact show (0x202000 : Word) ≠ 0x200000 by decide
  obtain ⟨s₂, added₂, inv₂, -, states₂⟩ := add_only inv₁ isHeld.2 other notIdle
  have runnable₁ : Runnable s₂.phys.mem 0x201000 :=
    ((states₂ _ isHeld.1).trans (if_neg (by decide))).trans ((states₁ _ isHeld.1).trans (if_pos rfl))
  have runnable₂ : Runnable s₂.phys.mem 0x202000 := (states₂ _ isHeld.2).trans (if_pos rfl)
  obtain ⟨u, cpu, done₁, -⟩ := (bypass_of_run (c := 0) inv₂ (.nil s₂)).2
  have step₁ : QueueStep demoLayout demoHeld 0 s₂ (.getNext u) _ := .getNext done₁
  obtain ⟨v, cpu', done₂, -⟩ := (bypass_of_run inv₂ (.cons step₁ (.nil _))).2
  have run : Run (QueueStep demoLayout demoHeld 0) s₂ [.getNext u, .getNext v] _ :=
    .cons step₁ (.cons (.getNext done₂) (.nil _))
  obtain rfl : (0x201000 : Word) = u := by
    obtain here | late := (bypass_of_run inv₂ (.cons step₁ (.nil _))).1 [] 0x203000 0x201000
      [(0x204000, 0x202000)] (by simp) runnable₁ (by simp [QueueEvent.Spares])
    · exact List.mem_singleton.mp here
    · exact absurd late.2 (by simp [returnedAfter])
  obtain rfl : (0x202000 : Word) = v := by
    obtain here | late := (bypass_of_run inv₂ run).1 [(0x203000, 0x201000)] 0x204000 0x202000
      [] (by simp) runnable₂ (by simp [QueueEvent.Spares])
    · simpa [returnedAfter] using here
    · exact absurd late.2 (by simp [returnedAfter])
  exact ⟨_, .cons added₁ (.cons added₂ run)⟩

end ShipOS
