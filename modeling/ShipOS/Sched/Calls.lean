/-
**What each scheduler call does to the queues, the current threads and the thread states.**

Every call keeps the run-queue invariant `Queues` and returns; `addTo_spec` and `schedAddThread_spec`
need a free page for the new node. Where a thread is queued is `At nodes c t`.

* `schedAddThread_spec` — the thread is appended to one queue and `RUNNABLE`;
* `schedRemoveThread_spec` — the thread is in no queue;
* `schedDispatch_spec`, `schedYield_spec`, `schedExit_spec` — the three switches;
* `schedBalance_spec` — at most one thread moves, `RUNNABLE` and not its CPU's current thread.
-/

import ShipOS.Sched.Queues

namespace ShipOS

open ByteMem Ring

variable {n : Nat} {L : Layout} {held : Word → Prop} {s s' : Sched n} {free : List Word}
  {nodes nodes' : Fin (n + 1) → List (Word × Word)} {c : Fin (n + 1)}

/-- The thread is in the queue of CPU `c`. -/
def At (nodes : Fin (n + 1) → List (Word × Word)) (c : Fin (n + 1)) (t : Word) : Prop :=
  ∃ x, (x, t) ∈ nodes c

theorem absent_iff {t : Word} : ¬ At nodes c t ↔ ∀ x ∈ nodes c, x.2 ≠ t := by
  refine ⟨fun nowhere x member same => nowhere ⟨x.1, ?_⟩, ?_⟩
  · rw [← same]
    exact member
  · rintro absent ⟨x, member⟩
    exact absent (x, t) member rfl

/-- The queue without a thread. -/
def without (t : Word) (q : List (Word × Word)) : List (Word × Word) :=
  q.filter fun x => x.2 ≠ t

/-- The records agree on the current and the idle threads. -/
structure SameCpus (s s' : Sched n) : Prop where
  current : ∀ d, (s'.cpus d).currentThread = (s.cpus d).currentThread
  idle : ∀ d, (s'.cpus d).idleThread = (s.cpus d).idleThread

theorem SameCpus.trans {s'' : Sched n} (first : SameCpus s s') (second : SameCpus s' s'') :
    SameCpus s s'' :=
  ⟨fun d => (second.current d).trans (first.current d), fun d => (second.idle d).trans (first.idle d)⟩

theorem sameCpus_set {cpu : PerCpu} {phys : Phys}
    (current : cpu.currentThread = (s.cpus c).currentThread)
    (idle : cpu.idleThread = (s.cpus c).idleThread) : SameCpus s (s.set c cpu phys) := by
  refine ⟨fun d => ?_, fun d => ?_⟩
  · by_cases here : d = c
    · rw [here, Sched.set_self, current]
    · rw [Sched.set_ne s here]
  · by_cases here : d = c
    · rw [here, Sched.set_self, idle]
    · rw [Sched.set_ne s here]

theorem SameStates.trans {m m' m'' : Mem} (first : SameStates held m m')
    (second : SameStates held m' m'') : SameStates held m m'' :=
  fun t isHeld => (second t isHeld).trans (first t isHeld)

/-! ### Adding -/

theorem unqueued_iff {t : Word} : Unqueued nodes t ↔ ∀ c, ¬ At nodes c t :=
  forall_congr' fun _ => absent_iff.symm

/-- **`sched_add_thread`'s last steps**: the thread is `RUNNABLE` and last in the queue. -/
theorem addTo_spec {f t : Word} (inv : Queues L held s (f :: free) nodes) (isHeld : held t)
    (unqueued : Unqueued nodes t) (notIdle : ∀ d, t ≠ (s.cpus d).idleThread) (d : Fin (n + 1)) :
    ∃ s', addTo d t s = .ok s' ∧
      Queues L held s' free (Function.update nodes d (nodes d ++ [(f, t)])) ∧ SameCpus s s' ∧
      ∀ u, held u → threadState s'.phys.mem u =
        if u = t then SchedState.runnable.raw else threadState s.phys.mem u := by
  have written := inv.write isHeld (changeThreadState_only s.phys.mem t .runnable)
  obtain ⟨cpu, phys, added, current, idle, inv', states⟩ :=
    written.add (c := d) isHeld unqueued notIdle
  refine ⟨_, by rw [addTo, added]; rfl, inv', sameCpus_set current idle, fun u heldU => ?_⟩
  rw [Sched.set_phys, states u heldU]
  exact threadState_change _ _ (inv.occupancy.apart t isHeld).1.aligned
    (inv.occupancy.apart u heldU).1.aligned

/-- With a thread and a valid index, or none, a CPU is chosen. -/
theorem schedAddThread_eq {t : Word} {cpuIndex : BitVec 32} (thread : t ≠ 0)
    (valid : cpuIndex.toInt < 0 ∨ cpuIndex.toNat < n + 1) :
    ∃ d, schedAddThread t cpuIndex s = addTo d t s := by
  rw [schedAddThread, if_neg thread]
  split
  · exact ⟨_, rfl⟩
  · rename_i nonneg
    rw [dif_pos (valid.resolve_left nonneg)]
    exact ⟨_, rfl⟩

/-- A call of `sched_add_thread` that returns has chosen a CPU. -/
theorem schedAddThread_target {t : Word} {cpuIndex : BitVec 32}
    (done : schedAddThread t cpuIndex s = .ok s') : ∃ d, addTo d t s = .ok s' := by
  rw [schedAddThread] at done
  split at done
  · cases done
  · split at done
    · exact ⟨_, done⟩
    · split at done
      · exact ⟨_, done⟩
      · cases done

/-- A call of `sched_add_thread` that returns has added the thread to some queue. -/
theorem schedAddThread_spec {t : Word} {cpuIndex : BitVec 32} (inv : Queues L held s free nodes)
    (isHeld : held t) (unqueued : Unqueued nodes t) (notIdle : ∀ d, t ≠ (s.cpus d).idleThread)
    (done : schedAddThread t cpuIndex s = .ok s') :
    ∃ d f free', free = f :: free' ∧
      Queues L held s' free' (Function.update nodes d (nodes d ++ [(f, t)])) ∧ SameCpus s s' ∧
      ∀ u, held u → threadState s'.phys.mem u =
        if u = t then SchedState.runnable.raw else threadState s.phys.mem u := by
  obtain ⟨d, added⟩ := schedAddThread_target done
  cases free with
  | nil =>
    have written := inv.write isHeld (changeThreadState_only s.phys.mem t .runnable)
    rw [addTo, runqueueAddUnlocked, pushThreadList_exhausted written.list] at added
    cases added
  | cons f free' =>
    obtain ⟨s'', added', effect⟩ := addTo_spec inv isHeld unqueued notIdle d
    rw [added] at added'
    cases added'
    exact ⟨d, f, free', rfl, effect⟩

/-! ### Removing -/

theorem without_eq_self {t : Word} {q : List (Word × Word)} (absent : ∀ x ∈ q, x.2 ≠ t) :
    without t q = q :=
  List.filter_eq_self.mpr fun x member => decide_eq_true (absent x member)

/-- A thread is in a queue once. -/
theorem Queues.without_eq (inv : Queues L held s free nodes) {x t : Word}
    {pre post : List (Word × Word)} (split : nodes c = pre ++ (x, t) :: post) :
    without t (nodes c) = pre ++ post := by
  have member : (x, t) ∈ nodes c := by
    rw [split]
    exact List.mem_append_right _ List.mem_cons_self
  have absent : ∀ y ∈ pre ++ post, y.2 ≠ t := by
    intro y inside same
    have memberY : y ∈ nodes c := by
      rw [split]
      exact (removed_sublist pre post (x, t)).subset inside
    have equal := (inv.occupancy.unique c c y memberY (x, t) member (.inr same)).2
    have nodup := inv.occupancy.nodup c
    rw [split] at nodup
    exact (List.nodup_cons.mp (List.nodup_middle.mp nodup)).1 (equal ▸ inside)
  have kept := without_eq_self absent
  rw [without, List.filter_append] at kept
  rw [split, without, List.filter_append, List.filter_cons_of_neg (by simp), kept]

/-- **`runqueue_remove_unlocked`** leaves the queue without the thread. -/
theorem Queues.remove (inv : Queues L held s free nodes) (c : Fin (n + 1)) (t : Word) :
    ∃ removed cpu phys free', runqueueRemoveUnlocked L (s.cpus c) t s.phys =
        .ok (removed, cpu, phys) ∧
      Queues L held (s.set c cpu phys) free' (Function.update nodes c (without t (nodes c))) ∧
      SameCpus s (s.set c cpu phys) ∧ SameStates held s.phys.mem phys.mem ∧
      (removed = true ↔ At nodes c t) ∧ (removed = true → free' ≠ []) := by
  by_cases here : At nodes c t
  · obtain ⟨x, member⟩ := here
    obtain ⟨pre, post, split⟩ := List.append_of_mem member
    obtain ⟨cpu, phys, done, current, idle, inv', states⟩ := inv.remove_found split
    have rest := inv.without_eq split
    rw [← rest] at inv'
    exact ⟨true, cpu, phys, _, done, inv', sameCpus_set current idle, states,
      iff_of_true rfl ⟨x, member⟩, fun _ => List.cons_ne_nil _ _⟩
  · have absent := absent_iff.mp here
    have same := Sched.set_same s c
    refine ⟨false, s.cpus c, s.phys, free, inv.remove_absent absent, ?_, ?_, fun _ _ => rfl,
      iff_of_false Bool.false_ne_true here, fun no => absurd no Bool.false_ne_true⟩
    · rw [same, without_eq_self absent, Function.update_eq_self]
      exact inv
    · rw [same]
      exact ⟨fun _ => rfl, fun _ => rfl⟩

theorem update_without {t : Word} (others : ∀ d, d ≠ c → ¬ At nodes d t) :
    Function.update nodes c (without t (nodes c)) = fun d => without t (nodes d) := by
  funext d
  by_cases here : d = c
  · rw [here, Function.update_self]
  · rw [Function.update_of_ne here]
    exact (without_eq_self (absent_iff.mp (others d here))).symm

/-- The search of `sched_remove_thread` through the CPUs. -/
theorem removeLoop_spec (t : Word) : ∀ (cpus : List (Fin (n + 1))) (s : Sched n) (free : List Word),
    Queues L held s free nodes → (∀ c, c ∉ cpus → ¬ At nodes c t) →
      ∃ s' free', removeLoop L t cpus s = .ok s' ∧
        Queues L held s' free' (fun c => without t (nodes c)) ∧ SameCpus s s' ∧
        SameStates held s.phys.mem s'.phys.mem := by
  intro cpus
  induction cpus with
  | nil =>
    intro s free inv nowhere
    have same : (fun c => without t (nodes c)) = nodes := by
      funext c
      exact without_eq_self (absent_iff.mp (nowhere c List.not_mem_nil))
    rw [same]
    exact ⟨s, free, rfl, inv, ⟨fun _ => rfl, fun _ => rfl⟩, fun _ _ => rfl⟩
  | cons i rest ih =>
    intro s free inv nowhere
    obtain ⟨removed, cpu, phys, free', done, inv', cpus, states, found, -⟩ := inv.remove i t
    rw [removeLoop, done, ok_bind]
    dsimp only
    by_cases here : At nodes i t
    · have others : ∀ d, d ≠ i → ¬ At nodes d t := by
        rintro d other ⟨y, memberY⟩
        obtain ⟨x, memberX⟩ := here
        exact other (inv.occupancy.unique d i _ memberY _ memberX (.inr rfl)).1
      rw [update_without others] at inv'
      rw [if_pos (found.mpr here)]
      exact ⟨_, free', rfl, inv', cpus, states⟩
    · have same : Function.update nodes i (without t (nodes i)) = nodes := by
        rw [without_eq_self (absent_iff.mp here), Function.update_eq_self]
      rw [same] at inv'
      rw [if_neg fun yes => here (found.mp yes)]
      obtain ⟨s', free'', done', inv'', cpus', states'⟩ := ih _ free' inv' fun c notRest => by
        by_cases first : c = i
        · rw [first]
          exact here
        · exact nowhere c fun inside => (List.mem_cons.mp inside).elim first notRest
      exact ⟨s', free'', done', inv'', cpus.trans cpus', states.trans states'⟩

/-- **`sched_remove_thread`** takes the thread out of whatever queue it is in. -/
theorem schedRemoveThread_spec (inv : Queues L held s free nodes) (t : Word) :
    ∃ s' free', schedRemoveThread L t s = .ok s' ∧
      Queues L held s' free' (fun c => without t (nodes c)) ∧ SameCpus s s' ∧
      SameStates held s.phys.mem s'.phys.mem := by
  rw [schedRemoveThread]
  by_cases null : t = 0
  · -- The null thread is in no queue: every queued thread is a page.
    have same : (fun c => without t (nodes c)) = nodes := by
      funext c
      refine without_eq_self fun x member same => ?_
      have page := (inv.occupancy.apart x.2 (inv.occupancy.queued c x member)).1
      exact page.ne_zero (same.trans null)
    rw [if_pos null, same]
    exact ⟨s, free, rfl, inv, ⟨fun _ => rfl, fun _ => rfl⟩, fun _ _ => rfl⟩
  · rw [if_neg null]
    exact removeLoop_spec t _ s free inv fun c missing => absurd (List.mem_finRange c) missing

/-! ### The next thread -/

/-- **`sched_get_next`**: the first `RUNNABLE` thread of the queue, which is turned behind it, or the
idle thread when there is none. -/
theorem schedGetNext_spec (inv : Queues L held s free nodes) (c : Fin (n + 1)) :
    ((∀ x ∈ nodes c, ¬ Runnable s.phys.mem x.2) ∧
      schedGetNext (s.cpus c) s.phys.mem = .ok ((s.cpus c).idleThread, s.cpus c)) ∨
    ∃ pre x post cpu, nodes c = pre ++ x :: post ∧ (∀ y ∈ pre, ¬ Runnable s.phys.mem y.2) ∧
      Runnable s.phys.mem x.2 ∧ schedGetNext (s.cpus c) s.phys.mem = .ok (x.2, cpu) ∧
      cpu.currentThread = (s.cpus c).currentThread ∧ cpu.idleThread = (s.cpus c).idleThread ∧
      Queues L held (s.set c cpu s.phys) free (Function.update nodes c (post ++ (pre ++ [x]))) := by
  refine (inv.getNext c).imp ?_ ?_
  · rintro ⟨unqueued, done⟩
    refine ⟨unqueued, ?_⟩
    rw [schedGetNext, done, ok_bind]
    exact if_neg (not_not.mpr rfl)
  · rintro ⟨pre, x, post, cpu, here, before, runnable, done, current, idle, inv'⟩
    refine ⟨pre, x, post, cpu, here, before, runnable, ?_, current, idle, inv'⟩
    have member : x ∈ nodes c := by
      rw [here]
      exact List.mem_append_right _ List.mem_cons_self
    have page := (inv.occupancy.apart x.2 (inv.occupancy.queued c x member)).1
    rw [schedGetNext, done, ok_bind]
    exact if_pos page.ne_zero

/-- The queues hold the same threads. -/
def SameAt (nodes nodes' : Fin (n + 1) → List (Word × Word)) : Prop :=
  ∀ d u, At nodes' d u ↔ At nodes d u

/-- The current threads with CPU `c`'s replaced, and the same idle threads. -/
structure SetCurrent (s : Sched n) (c : Fin (n + 1)) (t : Word) (s' : Sched n) : Prop where
  here : (s'.cpus c).currentThread = t
  other : ∀ d, d ≠ c → (s'.cpus d).currentThread = (s.cpus d).currentThread
  idle : ∀ d, (s'.cpus d).idleThread = (s.cpus d).idleThread

theorem setCurrent_set {cpu : PerCpu} {phys : Phys} {t : Word} (current : cpu.currentThread = t)
    (idle : cpu.idleThread = (s.cpus c).idleThread) : SetCurrent s c t (s.set c cpu phys) := by
  refine ⟨by rw [Sched.set_self, current], fun d other => by rw [Sched.set_ne s other],
    fun d => ?_⟩
  by_cases here : d = c
  · rw [here, Sched.set_self, idle]
  · rw [Sched.set_ne s here]

theorem sameAt_turn {pre post : List (Word × Word)} {x : Word × Word}
    (here : nodes c = pre ++ x :: post) :
    SameAt nodes (Function.update nodes c (post ++ (pre ++ [x]))) := by
  intro d u
  by_cases this : d = c
  · subst this
    rw [At, At, Function.update_self, here]
    refine exists_congr fun y => ?_
    simp only [List.mem_append, List.mem_cons, List.not_mem_nil, or_false]
    tauto
  · rw [At, At, Function.update_of_ne this]

/-- The next thread, idle or queued, and the queues after the call. -/
theorem schedGetNext_any (inv : Queues L held s free nodes) (c : Fin (n + 1)) :
    ∃ next cpu nodes', schedGetNext (s.cpus c) s.phys.mem = .ok (next, cpu) ∧
      cpu.idleThread = (s.cpus c).idleThread ∧ held next ∧
      Queues L held (s.set c cpu s.phys) free nodes' ∧ SameAt nodes nodes' ∧
      (next = (s.cpus c).idleThread ∨ (At nodes c next ∧ Runnable s.phys.mem next)) := by
  rcases schedGetNext_spec inv c with
    ⟨-, done⟩ | ⟨pre, x, post, cpu, here, -, runnable, done, -, idle, inv'⟩
  · refine ⟨_, _, nodes, done, rfl, inv.idleHeld c, ?_, fun _ _ => Iff.rfl, .inl rfl⟩
    rw [Sched.set_same]
    exact inv
  · have member : x ∈ nodes c := by
      rw [here]
      exact List.mem_append_right _ List.mem_cons_self
    exact ⟨x.2, cpu, _, done, idle, inv.occupancy.queued c x member, inv', sameAt_turn here,
      .inr ⟨⟨x.1, member⟩, runnable⟩⟩

/-- **The dispatch of `sched_run`**: the idle thread, or a queued `RUNNABLE` one, is the current
thread and `ON_CPU`. -/
theorem schedDispatch_spec (inv : Queues L held s free nodes) (c : Fin (n + 1)) :
    ∃ next s' nodes', schedDispatch c s = .ok (next, s') ∧ Queues L held s' free nodes' ∧
      SameAt nodes nodes' ∧ SetCurrent s c next s' ∧ held next ∧
      (next = (s.cpus c).idleThread ∨ (At nodes c next ∧ Runnable s.phys.mem next)) ∧
      ∀ u, held u → threadState s'.phys.mem u =
        if u = next then SchedState.onCpu.raw else threadState s.phys.mem u := by
  obtain ⟨next, cpu, nodes', got, idle, isHeld, inv', same, origin⟩ := schedGetNext_any inv c
  have page := (inv.occupancy.apart next isHeld).1
  refine ⟨next, s.set c { cpu with currentThread := next }
    { s.phys with mem := changeThreadState s.phys.mem next .onCpu }, nodes', ?_, ?_, same,
    setCurrent_set rfl idle, isHeld, origin, fun u heldU => ?_⟩
  · rw [schedDispatch, got, ok_bind]
    exact if_pos page.ne_zero
  · refine (inv'.write isHeld (changeThreadState_only s.phys.mem next .onCpu)).records rfl
      fun d => ?_
    by_cases here : d = c
    · subst here
      simp
    · rw [Sched.set_ne s here]
      exact ⟨by rw [Sched.set_ne s here], by rw [Sched.set_ne s here], by rw [Sched.set_ne s here]⟩
  · exact threadState_change _ _ page.aligned (inv.occupancy.apart u heldU).1.aligned

/-! ### Leaving the CPU -/

/-- **`sched_yield`**: the current thread, unless it is idle, is `RUNNABLE` and stays queued. -/
theorem schedYield_spec (inv : Queues L held s free nodes) (c : Fin (n + 1))
    (isHeld : held (s.cpus c).currentThread)
    (notIdle : (s.cpus c).currentThread ≠ (s.cpus c).idleThread) :
    ∃ s', schedYield c s = (true, s') ∧ Queues L held s' free nodes ∧ SameCpus s s' ∧
      ∀ u, held u → threadState s'.phys.mem u =
        if u = (s.cpus c).currentThread then SchedState.runnable.raw
        else threadState s.phys.mem u := by
  have page := (inv.occupancy.apart _ isHeld).1
  refine ⟨_, if_neg (not_or.mpr ⟨page.ne_zero, notIdle⟩), ?_, sameCpus_set rfl rfl, fun u heldU => ?_⟩
  · refine (inv.write isHeld (changeThreadState_only s.phys.mem _ .runnable)).records rfl fun d => ?_
    by_cases here : d = c
    · subst here
      simp
    · rw [Sched.set_ne s here]
      exact ⟨rfl, rfl, rfl⟩
  · exact threadState_change _ _ page.aligned (inv.occupancy.apart u heldU).1.aligned

/-- **`sched_exit`**: the current thread, unless it is idle, is `EXIT`, not in the queue of its CPU
and not current. -/
theorem schedExit_spec (inv : Queues L held s free nodes) (c : Fin (n + 1))
    (isHeld : held (s.cpus c).currentThread)
    (notIdle : (s.cpus c).currentThread ≠ (s.cpus c).idleThread) :
    ∃ s' free', schedExit L c s = .ok (true, s') ∧
      Queues L held s' free'
        (Function.update nodes c (without (s.cpus c).currentThread (nodes c))) ∧
      SetCurrent s c 0 s' ∧
      ∀ u, held u → threadState s'.phys.mem u =
        if u = (s.cpus c).currentThread then SchedState.exit.raw
        else threadState s.phys.mem u := by
  have page := (inv.occupancy.apart _ isHeld).1
  have written := inv.write isHeld
    (changeThreadState_only s.phys.mem (s.cpus c).currentThread .exit)
  obtain ⟨removed, cpu, phys, free', done, inv', cpus, states, -⟩ :=
    written.remove c (s.cpus c).currentThread
  have idle : cpu.idleThread = (s.cpus c).idleThread := by
    have same := cpus.idle c
    rwa [Sched.set_self] at same
  refine ⟨s.set c { cpu with currentThread := 0 } phys, free', ?_, ?_, setCurrent_set rfl idle,
    fun u heldU => ?_⟩
  · rw [schedExit]
    dsimp only
    rw [if_neg (not_or.mpr ⟨page.ne_zero, notIdle⟩), done]
    rfl
  · refine inv'.records rfl fun d => ?_
    by_cases here : d = c
    · subst here
      simp
    · rw [Sched.set_ne s here, Sched.set_ne _ here]
      exact ⟨rfl, rfl, rfl⟩
  · rw [Sched.set_phys, states u heldU]
    exact threadState_change _ _ page.aligned (inv.occupancy.apart u heldU).1.aligned

/-! ### Balancing -/

theorem at_without {t u : Word} {d : Fin (n + 1)} :
    At (Function.update nodes c (without t (nodes c))) d u ↔
      At nodes d u ∧ ¬ (d = c ∧ u = t) := by
  by_cases here : d = c
  · subst here
    simp [At, without]
  · simp [At, here]

theorem at_push {f t u : Word} {d : Fin (n + 1)} :
    At (Function.update nodes c (nodes c ++ [(f, t)])) d u ↔ At nodes d u ∨ (d = c ∧ u = t) := by
  by_cases here : d = c
  · subst here
    simp [At, exists_or]
  · simp [At, here]

/-- **A thread moves from its place in a queue to the end of another**, on the same node. -/
theorem Queues.migrate {src : Fin (n + 1)} {x t : Word} {pre post : List (Word × Word)}
    (inv : Queues L held s free nodes) (split : nodes src = pre ++ (x, t) :: post)
    (dst : Fin (n + 1)) :
    ∃ s', migrate L src dst t s = .ok s' ∧
      Queues L held s' free (Function.update (Function.update nodes src (pre ++ post)) dst
        (Function.update nodes src (pre ++ post) dst ++ [(x, t)])) ∧
      SameCpus s s' ∧ SameStates held s.phys.mem s'.phys.mem := by
  have member : (x, t) ∈ nodes src := by
    rw [split]
    exact List.mem_append_right _ List.mem_cons_self
  obtain ⟨cpu, phys, done, current, idle, inv₁, states₁⟩ := inv.remove_found split
  have cpus₁ : SameCpus s (s.set src cpu phys) := sameCpus_set current idle
  have unqueued : Unqueued (Function.update nodes src (pre ++ post)) t := by
    rw [← inv.without_eq split]
    refine unqueued_iff.mpr fun d there => ?_
    obtain ⟨⟨y, was⟩, notSrc⟩ := at_without.mp there
    exact notSrc ⟨(inv.occupancy.unique d src _ was _ member (.inr rfl)).1, rfl⟩
  have notIdle : ∀ d, t ≠ ((s.set src cpu phys).cpus d).idleThread := by
    intro d
    rw [cpus₁.idle]
    exact inv.notIdle src d _ member
  obtain ⟨cpu₂, phys₂, added, current₂, idle₂, inv₂, states₂⟩ :=
    inv₁.add (c := dst) (inv.occupancy.queued src _ member) unqueued notIdle
  refine ⟨_, ?_, inv₂, cpus₁.trans (sameCpus_set current₂ idle₂), states₁.trans states₂⟩
  rw [ShipOS.migrate, done, ok_bind]
  dsimp only
  rw [added]
  rfl

/-- The thread moves from one queue to another. -/
theorem migrate_spec {t : Word} (inv : Queues L held s free nodes) {src : Fin (n + 1)}
    (here : At nodes src t) (dst : Fin (n + 1)) :
    ∃ s' free' nodes', migrate L src dst t s = .ok s' ∧ Queues L held s' free' nodes' ∧
      SameCpus s s' ∧ SameStates held s.phys.mem s'.phys.mem ∧
      ∀ d u, At nodes' d u ↔ (At nodes d u ∧ u ≠ t) ∨ (d = dst ∧ u = t) := by
  obtain ⟨x, member⟩ := here
  obtain ⟨pre, post, split⟩ := List.append_of_mem member
  have home : ∀ d, At nodes d t → d = src := by
    rintro d ⟨y, memberY⟩
    exact (inv.occupancy.unique d src _ memberY _ member (.inr rfl)).1
  obtain ⟨s', done, inv', cpus, states⟩ := inv.migrate split dst
  refine ⟨s', free, _, done, inv', cpus, states, fun d u => ?_⟩
  rw [at_push, ← inv.without_eq split, at_without]
  constructor
  · rintro (⟨was, notSrc⟩ | moved)
    · refine .inl ⟨was, ?_⟩
      rintro rfl
      exact notSrc ⟨home d was, rfl⟩
    · exact .inr moved
  · rintro (⟨was, other⟩ | moved)
    · exact .inl ⟨was, fun both => other both.2⟩
    · exact .inr moved

/-- **`sched_balance`** moves at most one thread, which is `RUNNABLE` and not the current thread of
the CPU it leaves. -/
theorem schedBalance_spec (inv : Queues L held s free nodes) :
    ∃ s' free' nodes', schedBalance L s = .ok s' ∧ Queues L held s' free' nodes' ∧ SameCpus s s' ∧
      SameStates held s.phys.mem s'.phys.mem ∧
      (SameAt nodes nodes' ∨ ∃ src dst t, At nodes src t ∧ t ≠ (s.cpus src).currentThread ∧
        Runnable s.phys.mem t ∧
        ∀ d u, At nodes' d u ↔ (At nodes d u ∧ u ≠ t) ∨ (d = dst ∧ u = t)) := by
  have idle : ∃ s' free' nodes', (.ok s : Except Halt (Sched n)) = .ok s' ∧
      Queues L held s' free' nodes' ∧ SameCpus s s' ∧ SameStates held s.phys.mem s'.phys.mem ∧
      (SameAt nodes nodes' ∨ ∃ src dst t, At nodes src t ∧ t ≠ (s.cpus src).currentThread ∧
        Runnable s.phys.mem t ∧
        ∀ d u, At nodes' d u ↔ (At nodes d u ∧ u ≠ t) ∨ (d = dst ∧ u = t)) :=
    ⟨s, free, nodes, rfl, inv, ⟨fun _ => rfl, fun _ => rfl⟩, fun _ _ => rfl,
      .inl fun _ _ => Iff.rfl⟩
  rw [schedBalance]
  dsimp only
  set src := (findLoads s.cpus).maxCpu
  split
  · exact idle
  · split
    · rename_i nonempty
      rw [scanQueue_eq (inv.queue src) (inv.pages src) nonempty.1, ok_bind]
      cases search : (nodes src).find?
          (fun x => migratable (s.cpus src) s.phys.mem x.1) with
      | none => exact idle
      | some x =>
        have member := List.mem_of_find?_eq_some search
        have good := List.find?_some search
        have data := (inv.queue src).data x member
        rw [migratable, decide_eq_true_iff, data] at good
        obtain ⟨s', free', nodes', done, inv', cpus, states, moved⟩ :=
          migrate_spec inv (show At nodes src x.2 from ⟨x.1, member⟩) (findLoads s.cpus).minCpu
        refine ⟨s', free', nodes', ?_, inv', cpus, states, .inr ⟨src, _, x.2, ⟨x.1, member⟩, good.1,
          (inv.runnable_iff member).mp good.2.2, moved⟩⟩
        rw [← data] at done
        exact done
    · exact idle

end ShipOS
