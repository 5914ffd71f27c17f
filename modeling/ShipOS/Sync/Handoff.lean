/-
**Mutex hand-off and waiting threads.**

`release_mutex` has two ways out. With no waiting thread it releases the spinlock, and all is well: as
long as every release goes this way, no thread is ever resumed, and every release leaves the spinlock
free and `ncli` as it was (`HandoffInv`). With a waiting thread it takes the thread off the list and
makes it `RUNNABLE`, but keeps the spinlock and its `ncli` level; and since `pop_thread_list` empties
the list, the other waiting threads are lost.

* `handoff_iff` — a release is sound exactly when it finds no waiting thread;
* `waiters_iff` — no waiting thread is lost exactly as long as every release that wakes one finds just
  one, after that thread has stored `WAIT`;
* `handoff_panics`, `waiter_lost` — the two shortest runs that go wrong.
-/

import ShipOS.Sync.Mutex

namespace ShipOS

open ByteMem Runs

variable {C : Type} [DecidableEq C] {L : Layout} {held : Word → Prop} {s s' : MutexSys C}
  {event : MutexEvent C} {c : C} {t : Word}

/-! ### The spinlock and `ncli` -/

/-- **Who has the spinlock**: one thread at most, whose CPU is one level deeper; a thread that spins is
one level deeper too, on a CPU where nobody has the mutex. -/
structure LockPart (word : BitVec 32) (ncli : C → BitVec 32) (on : C → Option Word)
    (pc : Word → MutexPc C) : Prop where
  holder : ∀ t c b, (pc t).Has c b → word = 1 ∧ ncli c = b + 1
  single : ∀ t u c d a b, (pc t).Has c a → (pc u).Has d b → t = u
  place : ∀ c d t b, on c = some t → (pc t).Has d b → d = c
  oneCpu : ∀ c d t, on c = some t → on d = some t → c = d
  spinning : ∀ c t b, on c = some t → pc t = .spin b → ncli c = b + 1 ∧ ∀ u a, ¬ (pc u).Has c a

section LockPart

variable {word : BitVec 32} {ncli : C → BitVec 32} {on : C → Option Word} {pc : Word → MutexPc C}

omit [DecidableEq C] in
/-- While the byte is zero nobody has the mutex. -/
theorem LockPart.nobody (lock : LockPart word ncli on pc)
    (unlocked : word.setWidth 8 = (0 : BitVec 8)) :
    ∀ u d b, ¬ (pc u).Has d b := by
  intro u d b has
  rw [(lock.holder u d b has).1] at unlocked
  cases unlocked

omit [DecidableEq C] in
/-- A thread in `release_mutex` is on the CPU it took the mutex on, one level deeper. -/
theorem LockPart.releasing (lock : LockPart word ncli on pc) {d : C} {b : BitVec 32}
    (here : on c = some t) (line : pc t = .unlocking d b ∨ pc t = .waking d b) :
    d = c ∧ (pc t).Has d b ∧ ncli c = b + 1 := by
  have has : (pc t).Has d b := by
    rcases line with line | line <;> rw [line] <;> exact ⟨rfl, rfl⟩
  obtain rfl := lock.place c d t b here has
  exact ⟨rfl, has, (lock.holder t d b has).2⟩

omit [DecidableEq C] in
/-- Two threads run on two CPUs. -/
theorem cpu_ne {d : C} {u : Word} (here : on c = some t) (hereU : on d = some u) (other : u ≠ t) :
    d ≠ c := by
  rintro rfl
  exact other (Option.some.inj (hereU.symm.trans here))

omit [DecidableEq C] in
/-- A thread goes on without taking the mutex. -/
theorem LockPart.goto (lock : LockPart word ncli on pc) {pc' : MutexPc C}
    (keep : ∀ d b, pc'.Has d b → (pc t).Has d b) (noSpin : ∀ b, pc' ≠ .spin b) :
    LockPart word ncli on (Function.update pc t pc') := by
  have back : ∀ u d b, (Function.update pc t pc' u).Has d b → (pc u).Has d b := by
    intro u d b has
    obtain ⟨rfl, new⟩ | ⟨-, old⟩ := update_cases has
    · exact keep d b new
    · exact old
  refine ⟨fun u d b has => lock.holder u d b (back u d b has),
    fun u v d e a b first second => lock.single u v d e a b (back _ _ _ first) (back _ _ _ second),
    fun d e u b here has => lock.place d e u b here (back _ _ _ has), lock.oneCpu, ?_⟩
  intro d u b here spins
  obtain ⟨-, new⟩ | ⟨-, old⟩ := update_cases (P := (· = MutexPc.spin b)) spins
  · exact absurd new (noSpin b)
  · obtain ⟨level, nobody⟩ := lock.spinning d u b here old
    exact ⟨level, fun v a has => nobody v a (back _ _ _ has)⟩

/-- A CPU without a thread that is in one of the two functions changes its thread. -/
theorem LockPart.switch (lock : LockPart word ncli on pc) {next : Option Word}
    (elsewhere : ∀ u d, next = some u → on d ≠ some u)
    (place : ∀ u d b, next = some u → (pc u).Has d b → d = c)
    (noSpin : ∀ u b, next = some u → pc u ≠ .spin b) :
    LockPart word ncli (Function.update on c next) pc := by
  refine ⟨lock.holder, lock.single, fun d e u b here has => ?_, fun d e u first second => ?_,
    fun d u b here spins => ?_⟩
  · obtain ⟨rfl, new⟩ | ⟨-, old⟩ := update_cases (P := (· = some u)) here
    · exact place u e b new has
    · exact lock.place d e u b old has
  · exact update_unique (P := (· = some u)) (fun d e => lock.oneCpu d e u)
      (fun new d old => absurd old (elsewhere u d new)) first second
  · obtain ⟨-, new⟩ | ⟨-, old⟩ := update_cases (P := (· = some u)) here
    · exact absurd spins (noSpin u b new)
    · exact lock.spinning d u b old spins

/-- The byte was zero: the thread goes to spin, one level deeper. -/
theorem LockPart.enter (lock : LockPart word ncli on pc) (here : on c = some t)
    (unlocked : word.setWidth 8 = (0 : BitVec 8)) :
    LockPart word (Function.update ncli c (ncli c + 1)) on
      (Function.update pc t (.spin (ncli c))) := by
  have nobody : ∀ u d b, ¬ (Function.update pc t (.spin (ncli c)) u).Has d b := by
    intro u d b has
    obtain ⟨-, new⟩ | ⟨-, old⟩ := update_cases has
    · exact new
    · exact lock.nobody unlocked u d b old
  refine ⟨fun u d b has => absurd has (nobody u d b), fun u v d e a b has => absurd has (nobody u d a),
    fun d e u b _ has => absurd has (nobody u e b), lock.oneCpu, fun d u b hereU spins => ?_⟩
  refine ⟨?_, fun v a => nobody v d a⟩
  obtain ⟨rfl, ⟨⟩⟩ | ⟨other, old⟩ := update_cases (P := (· = MutexPc.spin b)) spins
  · obtain rfl := lock.oneCpu c d u here hereU
    exact Function.update_self ..
  · rw [Function.update_of_ne (cpu_ne here hereU other)]
    exact (lock.spinning d u b hereU old).1

omit [DecidableEq C] in
/-- The word was zero: the thread has the mutex. -/
theorem LockPart.take (lock : LockPart word ncli on pc) {b : BitVec 32} (here : on c = some t)
    (spins : pc t = .spin b) (free : word = 0) :
    LockPart 1 ncli on (Function.update pc t (.locked c b)) := by
  obtain ⟨level, -⟩ := lock.spinning c t b here spins
  have only : ∀ u d a, (Function.update pc t (.locked c b) u).Has d a → u = t ∧ c = d ∧ b = a := by
    intro u d a has
    obtain ⟨same, new⟩ | ⟨-, old⟩ := update_cases has
    · exact ⟨same, new⟩
    · exact absurd old (lock.nobody (by rw [free]; rfl) u d a)
  refine ⟨fun u d a has => ?_, fun u v d e a a' first second => ?_, fun d e u a hereU has => ?_,
    lock.oneCpu, fun d u a hereU again => ?_⟩
  · obtain ⟨-, rfl, rfl⟩ := only u d a has
    exact ⟨rfl, level⟩
  · exact (only _ _ _ first).1.trans (only _ _ _ second).1.symm
  · obtain ⟨rfl, rfl, -⟩ := only u e a has
    exact lock.oneCpu c d u here hereU
  · obtain ⟨-, ⟨⟩⟩ | ⟨other, old⟩ := update_cases (P := (· = MutexPc.spin a)) again
    refine ⟨(lock.spinning d u a hereU old).1, fun v a' has => ?_⟩
    exact cpu_ne here hereU other (only v d a' has).2.1.symm

omit [DecidableEq C] in
/-- A failed exchange stores `1`. -/
theorem LockPart.spin (lock : LockPart word ncli on pc) : LockPart 1 ncli on pc :=
  { lock with holder := fun u d b has => ⟨rfl, (lock.holder u d b has).2⟩ }

/-- The spinlock is released on the CPU it was taken on. -/
theorem LockPart.unlock (lock : LockPart word ncli on pc) {b : BitVec 32} (here : on c = some t)
    (has : (pc t).Has c b) :
    LockPart 0 (Function.update ncli c (ncli c - 1)) on (Function.update pc t .outside) := by
  have nobody : ∀ u d a, ¬ (Function.update pc t .outside u).Has d a := by
    intro u d a hasU
    obtain ⟨-, new⟩ | ⟨other, old⟩ := update_cases hasU
    · exact new
    · exact other (lock.single u t d c a b old has)
  refine ⟨fun u d a hasU => absurd hasU (nobody u d a),
    fun u v d e a a' hasU => absurd hasU (nobody u d a),
    fun d e u a _ hasU => absurd hasU (nobody u e a), lock.oneCpu, fun d u a hereU spins => ?_⟩
  obtain ⟨-, ⟨⟩⟩ | ⟨other, old⟩ := update_cases (P := (· = MutexPc.spin a)) spins
  rw [Function.update_of_ne (cpu_ne here hereU other)]
  exact ⟨(lock.spinning d u a hereU old).1, fun v a' => nobody v d a'⟩

end LockPart

/-! ### The waiting threads -/

/-- The step is the last one of a release that found a waiting thread. -/
def Wakes (s : MutexSys C) (event : MutexEvent C) : Prop :=
  ∃ c t d before, event = .next c ∧ s.on c = some t ∧ s.pc t = .waking d before

/-- The list is in memory, and only threads take part. -/
structure Waiters (L : Layout) (held : Word → Prop) (s : MutexSys C) : Prop where
  waits : ∃ free nodes, WaitList L held s.phys s.threadList s.queued free nodes
  onHeld : ∀ c t, s.on c = some t → held t
  inside : ∀ t, s.pc t ≠ .outside → held t

omit [DecidableEq C] in
theorem MutexFresh.waiters {free : List Word} (fresh : MutexFresh L held s free) :
    Waiters L held s := by
  refine ⟨⟨free, [], fresh.waitList⟩, fun c t here => ?_, fun t inside => absurd (fresh.pc t) inside⟩
  rw [fresh.on c] at here
  cases here

omit [DecidableEq C] in
theorem inside_update {pc : Word → MutexPc C} (inside : ∀ u, pc u ≠ .outside → held u)
    (isHeld : held t) (pc' : MutexPc C) : ∀ u, Function.update pc t pc' u ≠ .outside → held u := by
  intro u out
  obtain ⟨rfl, -⟩ | ⟨-, old⟩ := update_cases (P := (· ≠ MutexPc.outside)) out
  · exact isHeld
  · exact inside u old

theorem onHeld_update {on : C → Option Word} (onHeld : ∀ d u, on d = some u → held u)
    {next : Option Word} (isHeld : ∀ u, next = some u → held u) :
    ∀ d u, Function.update on c next d = some u → held u := by
  intro d u here
  obtain ⟨-, new⟩ | ⟨-, old⟩ := update_cases (P := (· = some u)) here
  · exact isHeld u new
  · exact onHeld d u old

/-- **The list stays in memory**, as long as a release that wakes a thread finds just one. -/
theorem Waiters.step (waiters : Waiters L held s) (step : MutexStep L held s event s')
    (one : Wakes s event → s.queued.length = 1) : Waiters L held s' := by
  obtain ⟨waits, onHeld, inside⟩ := waiters
  cases step with
  | dispatch _ isHeld =>
    exact ⟨waits, onHeld_update onHeld fun u same => Option.some.inj same ▸ isHeld, inside⟩
  | @resume c t _ _ asleep =>
    have isHeld := inside t (by rw [asleep]; nofun)
    exact ⟨waits, onHeld_update onHeld fun u same => Option.some.inj same ▸ isHeld,
      inside_update inside isHeld _⟩
  | leave => exact ⟨waits, onHeld_update onHeld nofun, inside⟩
  | acquire here => exact ⟨waits, onHeld, inside_update inside (onHeld _ _ here) _⟩
  | release here => exact ⟨waits, onHeld, inside_update inside (onHeld _ _ here) _⟩
  | @next _ c t here busy done =>
    have isHeld := onHeld c t here
    have inside' := fun pc' => inside_update inside isHeld pc'
    obtain ⟨free, nodes, list⟩ := waits
    cases mutexLine_of_next busy done with
    | enter | block | take | panic | retry | refuse | unlock =>
      exact ⟨⟨free, nodes, list⟩, onHeld, inside' _⟩
    | spin => exact ⟨⟨free, nodes, list⟩, onHeld, inside⟩
    | push _ pushed => exact ⟨(list.pushed isHeld pushed).1, onHeld, inside' _⟩
    | wait => exact ⟨⟨free, nodes, (list.change isHeld .wait).1⟩, onHeld, inside' _⟩
    | yield => exact ⟨⟨free, nodes, list⟩, onHeld_update onHeld nofun, inside' _⟩
    | wake line popped =>
      obtain ⟨w, only⟩ := List.length_eq_one_iff.mp (one ⟨c, t, _, _, rfl, here, line⟩)
      rw [only] at list
      obtain ⟨_, _, _, free', first, again, empty, -⟩ := list.pop (List.cons_ne_nil _ _)
      cases again.symm.trans popped
      obtain ⟨rfl, rfl⟩ := List.cons.inj first
      have changed := (empty.change (list.isHeld w List.mem_cons_self) .runnable).1
      refine ⟨⟨free', [], ?_⟩, onHeld, inside' _⟩
      dsimp only
      rw [only]
      exact changed

/-- A thread that put itself in state `WAIT` for the mutex and was not made `RUNNABLE` since. -/
def Waiting (s : MutexSys C) (t : Word) : Prop :=
  (s.pc t = .yield ∨ s.pc t = .asleep) ∧ threadState s.phys.mem t = SchedState.wait.raw

/-- **No waiting thread is lost**: the list holds exactly the threads that queued and were not yet
woken, in order, and every waiting thread is one of them. -/
def Lossless (L : Layout) (s : MutexSys C) : Prop :=
  (∃ nodes, Queue s.phys.mem s.threadList nodes ∧ NodePages L nodes ∧
    nodes.map Prod.snd = s.queued) ∧ ∀ t, Waiting s t → t ∈ s.queued

/-- What the waiting threads may expect of a step: none is lost, and a release that wakes one makes the
first of the queue `RUNNABLE`, and no other. -/
def WaiterFine (L : Layout) (held : Word → Prop) (s : MutexSys C) (event : MutexEvent C)
    (s' : MutexSys C) : Prop :=
  Lossless L s' ∧ (Wakes s event → ∃ w, s.queued.head? = some w ∧
    ∀ u, held u → threadState s'.phys.mem u =
      if u = w then SchedState.runnable.raw else threadState s.phys.mem u)

/-- A release that wakes a thread finds just one, and a thread that stores `WAIT` is still queued. -/
def WaiterFits (s : MutexSys C) (event : MutexEvent C) : Prop :=
  (Wakes s event → s.queued.length = 1) ∧
    ∀ c t, event = .next c → s.on c = some t → s.pc t = .wait → t ∈ s.queued

structure WaiterInv (L : Layout) (held : Word → Prop) (s : MutexSys C) : Prop
    extends Waiters L held s where
  waiting : ∀ t, Waiting s t → t ∈ s.queued

omit [DecidableEq C] in
theorem WaiterInv.lossless (inv : WaiterInv L held s) : Lossless L s := by
  obtain ⟨_, nodes, list⟩ := inv.waits
  exact ⟨⟨nodes, list.queue, list.pages, list.data⟩, inv.waiting⟩

omit [DecidableEq C] in
theorem sleeps_update {pc : Word → MutexPc C} {pc' : MutexPc C} {u : Word}
    (sleeps : Function.update pc t pc' u = .yield ∨ Function.update pc t pc' u = .asleep) :
    u = t ∧ (pc' = .yield ∨ pc' = .asleep) ∨ u ≠ t ∧ (pc u = .yield ∨ pc u = .asleep) :=
  update_cases (P := fun pc : MutexPc C => pc = .yield ∨ pc = .asleep) sleeps

omit [DecidableEq C] in
/-- After a step that sends its thread to a place where it is awake, the others sleep that slept. -/
theorem Waiting.slept {u : Word} {pc' : MutexPc C} (waits : Waiting s' u)
    (pc : s'.pc = Function.update s.pc t pc') (awake : pc' ≠ .yield ∧ pc' ≠ .asleep) :
    s.pc u = .yield ∨ s.pc u = .asleep := by
  have sleeps := waits.1
  rw [pc] at sleeps
  obtain ⟨-, new⟩ | ⟨-, old⟩ := sleeps_update sleeps
  · exact absurd new (not_or.mpr awake)
  · exact old

omit [DecidableEq C] in
theorem Waiters.sleeper (waiters : Waiters L held s) {u : Word}
    (sleeps : s.pc u = .yield ∨ s.pc u = .asleep) : held u := by
  refine waiters.inside u fun out => ?_
  rw [out] at sleeps
  rcases sleeps with sleeps | sleeps <;> cases sleeps

omit [DecidableEq C] in
theorem releaseMutex_awake (s : MutexSys C) (c : C) (b : BitVec 32) :
    s.releaseMutex c b ≠ .yield ∧ s.releaseMutex c b ≠ .asleep := by
  unfold MutexSys.releaseMutex
  split_ifs <;> exact ⟨nofun, nofun⟩

/-- **Every step that fits keeps the waiting threads queued**, and a release wakes the first. -/
theorem WaiterInv.step (inv : WaiterInv L held s) (step : MutexStep L held s event s')
    (fits : WaiterFits s event) : WaiterInv L held s' := by
  refine ⟨inv.toWaiters.step step fits.1, ?_⟩
  have waiting := inv.waiting
  -- A step that sends its thread to a place where it is awake, and changes no state.
  have goto : ∀ {s' : MutexSys C} {t : Word} {pc' : MutexPc C}, s'.pc = Function.update s.pc t pc' →
      s'.phys = s.phys → s'.queued = s.queued → pc' ≠ .yield ∧ pc' ≠ .asleep →
        ∀ u, Waiting s' u → u ∈ s'.queued := by
    intro s' t pc' pc phys queued awake u waits
    rw [queued]
    exact waiting u ⟨waits.slept pc awake, phys ▸ waits.2⟩
  cases step with
  | dispatch | leave => exact waiting
  | resume => exact goto rfl rfl rfl ⟨nofun, nofun⟩
  | acquire => exact goto rfl rfl rfl ⟨nofun, nofun⟩
  | release => exact goto rfl rfl rfl (releaseMutex_awake s _ _)
  | @next _ c t here busy done =>
    have isHeld := inv.onHeld c t here
    obtain ⟨free, nodes, list⟩ := inv.waits
    cases mutexLine_of_next busy done with
    | enter | block | take | panic | retry | refuse | unlock => exact goto rfl rfl rfl ⟨nofun, nofun⟩
    | spin => exact waiting
    | push _ pushed =>
      have same := (list.pushed isHeld pushed).2
      intro u waits
      have slept := waits.slept (s := s) rfl ⟨nofun, nofun⟩
      have state := (same u (inv.sleeper slept)).symm.trans waits.2
      exact List.mem_append_left _ (waiting u ⟨slept, state⟩)
    | wait line =>
      rintro u ⟨sleeps, state⟩
      obtain ⟨rfl, -⟩ | ⟨other, old⟩ := sleeps_update sleeps
      · exact fits.2 c u rfl here line
      · have same := ((list.change isHeld .wait).2 u (inv.sleeper old)).trans (if_neg other)
        exact waiting u ⟨old, same.symm.trans state⟩
    | yield line =>
      rintro u ⟨sleeps, state⟩
      obtain ⟨rfl, -⟩ | ⟨-, old⟩ := sleeps_update sleeps
      · exact waiting u ⟨.inl line, state⟩
      · exact waiting u ⟨old, state⟩
    | wake line popped =>
      obtain ⟨w, only⟩ := List.length_eq_one_iff.mp (fits.1 ⟨c, t, _, _, rfl, here, line⟩)
      rw [only] at list
      obtain ⟨_, _, _, _, first, again, empty, same⟩ := list.pop (List.cons_ne_nil _ _)
      cases again.symm.trans popped
      obtain ⟨rfl, rfl⟩ := List.cons.inj first
      have states := (empty.change (list.isHeld w List.mem_cons_self) .runnable).2
      intro u waits
      exfalso
      have slept := waits.slept (s := s) rfl ⟨nofun, nofun⟩
      have isHeldU := inv.sleeper slept
      have state := waits.2
      dsimp only at state
      rw [states u isHeldU] at state
      split at state
      · cases state
      · rename_i other
        have member := waiting u ⟨slept, (same u isHeldU).symm.trans state⟩
        rw [only] at member
        exact other (List.mem_singleton.mp member)

/-- The last step of a release that found a waiting thread. -/
theorem MutexStep.woken (step : MutexStep L held s event s') (wakes : Wakes s event) :
    ∃ c t d b thread threadList phys, event = .next c ∧ s.on c = some t ∧ s.pc t = .waking d b ∧
      popThreadList L s.threadList s.phys = .ok (thread, threadList, phys) ∧
      s' = { s.goto t .outside with
        phys := { phys with mem := changeThreadState phys.mem thread .runnable },
        threadList := threadList, queued := s.queued.tail } := by
  obtain ⟨c, t, d, b, rfl, here, line⟩ := wakes
  cases step with
  | @next _ _ u hereU busy done =>
    cases hereU.symm.trans here
    rw [MutexSys.next, line] at done
    obtain ⟨⟨thread, threadList, phys⟩, popped, rest⟩ := bind_ok done
    cases rest
    exact ⟨c, t, d, b, thread, threadList, phys, rfl, here, line, popped, rfl⟩

/-- What such a step does to the waiting list. -/
theorem Waiters.woken (waiters : Waiters L held s) (step : MutexStep L held s event s')
    (wakes : Wakes s event) :
    ∃ w rest, s.queued = w :: rest ∧ s'.queued = rest ∧ s'.threadList = 0 ∧
      ∀ u, held u → threadState s'.phys.mem u =
        if u = w then SchedState.runnable.raw else threadState s.phys.mem u := by
  obtain ⟨c, t, d, b, thread, threadList, phys, -, -, -, popped, rfl⟩ := step.woken wakes
  obtain ⟨free, nodes, list⟩ := waiters.waits
  have waiting : s.queued ≠ [] := by
    intro empty
    rw [popThreadList, if_pos (list.eq_zero_iff.mpr empty)] at popped
    cases popped
  obtain ⟨_, rest, _, _, first, again, empty, same⟩ := list.pop waiting
  cases again.symm.trans popped
  refine ⟨thread, rest, first, ?_, rfl, fun u isHeld => ?_⟩
  · show s.queued.tail = rest
    rw [first, List.tail_cons]
  · have isHeldW := list.isHeld thread (first ▸ List.mem_cons_self)
    rw [← same u isHeld]
    exact (empty.change isHeldW .runnable).2 u isHeld

/-- **When waiting threads are lost.** From an initialised mutex, as long as every step fits: the next
step loses no waiting thread, and wakes the first of the queue and no other if it ends a release,
exactly if it fits too. -/
theorem waiters_iff {free : List Word} {events : List (MutexEvent C)} {start : MutexSys C}
    (fresh : MutexFresh L held start free)
    (run : Run (fun s e s' => WaiterFits s e ∧ MutexStep L held s e s') start events s)
    (step : MutexStep L held s event s') :
    WaiterFine L held s event s' ↔ WaiterFits s event := by
  have first : WaiterInv L held start := by
    refine ⟨fresh.waiters, fun t waits => ?_⟩
    have sleeps := waits.1
    rw [fresh.pc t] at sleeps
    rcases sleeps with sleeps | sleeps <;> cases sleeps
  have inv : WaiterInv L held s :=
    run.keeps (WaiterInv L held) (fun _ _ _ inv both => inv.step both.2 both.1) first
  constructor
  · rintro ⟨⟨⟨nodes, queue, pages, data⟩, waiting⟩, -⟩
    refine ⟨fun wakes => ?_, fun c t next here line => ?_⟩
    · obtain ⟨w, rest, all, left, empty, -⟩ := inv.woken step wakes
      -- The list is empty, so nobody may be left in the queue.
      rcases nodes with _ | ⟨x, nodes⟩
      · rw [all, ← left, ← data]
        rfl
      · have head := queue.head_eq
        rw [empty] at head
        exact absurd head.symm (pages.page x List.mem_cons_self).ne_zero
    · subst next
      cases step with
      | @next _ _ u hereU busy done =>
        cases hereU.symm.trans here
        obtain ⟨_, _, list⟩ := inv.waits
        rw [MutexSys.next, line] at done
        cases done
        have isHeld := inv.onHeld c t here
        refine waiting t ⟨.inl (Function.update_self ..), ?_⟩
        exact ((list.change isHeld .wait).2 t isHeld).trans (if_pos rfl)
  · intro fits
    refine ⟨(inv.step step fits).lossless, fun wakes => ?_⟩
    obtain ⟨w, rest, all, -, -, states⟩ := inv.woken step wakes
    exact ⟨w, by rw [all, List.head?_cons], states⟩

/-! ### The hand-off -/

/-- What a step should do: no thread finds the spinlock taken after `yield`, and after a release the
spinlock is free, or the woken thread has it, and `ncli` of the CPU is what it was before the
acquisition. -/
def HandoffFine (s : MutexSys C) (event : MutexEvent C) (s' : MutexSys C) : Prop :=
  (∀ t, s'.pc t ≠ .panicked "acquire_mutex: spinlock in not free") ∧
    ∀ c t d b, event = .next c → s.on c = some t →
      s.pc t = .unlocking d b ∨ s.pc t = .waking d b →
        (s'.word = 0 ∨ ∃ w e a, s.queued.head? = some w ∧ s'.pc w = .locked e a) ∧ s'.ncli c = b

/-- **As long as no release finds a waiting thread**: nobody is ever resumed, and nobody panics. -/
structure HandoffInv (L : Layout) (held : Word → Prop) (s : MutexSys C) : Prop
    extends Waiters L held s where
  lock : LockPart s.word s.ncli s.on s.pc
  sleeping : ∀ t, s.pc t = .yield ∨ s.pc t = .asleep →
    threadState s.phys.mem t = SchedState.wait.raw
  calm : ∀ t, s.pc t ≠ .recheck ∧ ∀ message, s.pc t ≠ .panicked message

omit [DecidableEq C] in
theorem MutexFresh.handoff {free : List Word} (fresh : MutexFresh L held s free) :
    HandoffInv L held s := by
  have nobody : ∀ t d b, ¬ (s.pc t).Has d b := by
    intro t d b has
    rw [fresh.pc t] at has
    exact has
  have off : ∀ c t, s.on c ≠ some t := by
    intro c t here
    rw [fresh.on c] at here
    cases here
  refine ⟨fresh.waiters, ⟨fun t c b has => absurd has (nobody t c b),
    fun t u c d a b has => absurd has (nobody t c a), fun c d t b here => absurd here (off c t),
    fun c d t here => absurd here (off c t), fun c t b here => absurd here (off c t)⟩, ?_, ?_⟩
  · intro t sleeps
    rw [fresh.pc t] at sleeps
    rcases sleeps with sleeps | sleeps <;> cases sleeps
  · intro t
    rw [fresh.pc t]
    exact ⟨nofun, nofun⟩

omit [DecidableEq C] in
/-- `release_mutex` does not panic. -/
theorem HandoffInv.release (inv : HandoffInv L held s) {b : BitVec 32} (has : s.pc t = .locked c b) :
    s.releaseMutex c b = .unlocking c b ∨ s.releaseMutex c b = .waking c b := by
  have locked : s.word = 1 := (inv.lock.holder t c b (by rw [has]; exact ⟨rfl, rfl⟩)).1
  have byte : s.isLocked ≠ 0 := by
    rw [MutexSys.isLocked, locked]
    decide
  rw [MutexSys.releaseMutex, if_neg byte]
  split_ifs
  · exact .inl rfl
  · exact .inr rfl

omit [DecidableEq C] in
/-- A thread goes to a place where it is neither resumed nor stopped. -/
theorem HandoffInv.calm_update (inv : HandoffInv L held s) {pc' : MutexPc C}
    (calm : pc' ≠ .recheck ∧ ∀ message, pc' ≠ .panicked message) (u : Word) :
    Function.update s.pc t pc' u ≠ .recheck ∧
      ∀ message, Function.update s.pc t pc' u ≠ .panicked message :=
  (Function.forall_update_iff s.pc fun _ pc => pc ≠ .recheck ∧ ∀ message, pc ≠ .panicked message).mpr
    ⟨calm, fun u _ => inv.calm u⟩ u

/-- A place where a thread is neither asleep nor resumed nor stopped. -/
def MutexPc.Plain : MutexPc C → Prop
  | .yield | .asleep | .recheck | .panicked _ => False
  | _ => True

omit [DecidableEq C] in
/-- A thread goes to a plain place, and no state changes. -/
theorem HandoffInv.plain (inv : HandoffInv L held s) {pc' : MutexPc C}
    (waiters : Waiters L held s') (lock : LockPart s'.word s'.ncli s'.on s'.pc)
    (pc : s'.pc = Function.update s.pc t pc') (plain : pc'.Plain)
    (same : ∀ u, held u → threadState s'.phys.mem u = threadState s.phys.mem u) :
    HandoffInv L held s' := by
  refine ⟨waiters, lock, fun u sleeps => ?_, fun u => ?_⟩
  · rw [pc] at sleeps
    obtain ⟨-, rfl | rfl⟩ | ⟨-, old⟩ := sleeps_update sleeps
    · exact plain.elim
    · exact plain.elim
    · rw [same u (inv.sleeper old)]
      exact inv.sleeping u old
  · rw [pc]
    refine inv.calm_update ⟨?_, ?_⟩ u
    · rintro rfl
      exact plain
    · rintro message rfl
      exact plain

/-- **Every step but the end of a release that found a waiting thread keeps the invariant.** -/
theorem HandoffInv.step (inv : HandoffInv L held s) (step : MutexStep L held s event s')
    (quiet : ¬ Wakes s event) : HandoffInv L held s' := by
  have waiters := inv.toWaiters.step step fun wakes => absurd wakes quiet
  cases step with
  | dispatch _ isHeld elsewhere ready =>
    refine ⟨waiters, inv.lock.switch ?_ ?_ ?_, inv.sleeping, inv.calm⟩
    · rintro u d ⟨⟩
      exact elsewhere d
    · rintro u d b ⟨⟩ has
      rcases ready with out | ⟨before, locked⟩
      · rw [out] at has
        exact has.elim
      · rw [locked] at has
        exact has.1.symm
    · rintro u b ⟨⟩ spins
      rcases ready with out | ⟨before, locked⟩
      · rw [out] at spins
        cases spins
      · rw [locked] at spins
        cases spins
  | @resume c t _ _ asleep runnable =>
    -- The thread waits: nobody has made it `RUNNABLE`.
    have state := inv.sleeping t (.inr asleep)
    rw [show threadState s.phys.mem t = SchedState.runnable.raw from runnable] at state
    cases state
  | leave => exact ⟨waiters, inv.lock.switch nofun nofun nofun, inv.sleeping, inv.calm⟩
  | acquire here =>
    exact inv.plain waiters (inv.lock.goto nofun nofun) rfl trivial fun _ _ => rfl
  | @release c t b here has =>
    have keep : ∀ d a, (s.releaseMutex c b).Has d a → (s.pc t).Has d a := by
      intro d a
      rw [has]
      rcases inv.release has with same | same <;> rw [same] <;> exact id
    refine inv.plain waiters (inv.lock.goto keep ?_) rfl ?_ fun _ _ => rfl
    · rcases inv.release has with same | same <;> rw [same] <;> nofun
    · rcases inv.release has with same | same <;> rw [same] <;> trivial
  | @next _ c t here busy done =>
    have isHeld := inv.onHeld c t here
    obtain ⟨free, nodes, list⟩ := inv.waits
    cases mutexLine_of_next busy done with
    | enter _ unlocked =>
      exact inv.plain waiters (inv.lock.enter here unlocked) rfl trivial
        fun _ _ => rfl
    | block =>
      exact inv.plain waiters (inv.lock.goto nofun nofun) rfl trivial
        fun _ _ => rfl
    | take line free =>
      exact inv.plain waiters (inv.lock.take here line free) rfl trivial
        fun _ _ => rfl
    | spin => exact ⟨waiters, inv.lock.spin, inv.sleeping, inv.calm⟩
    | push _ pushed =>
      exact inv.plain waiters (inv.lock.goto nofun nofun) rfl trivial
        (list.pushed isHeld pushed).2
    | wait =>
      have states := (list.change isHeld .wait).2
      refine ⟨waiters, inv.lock.goto nofun nofun, fun u sleeps => ?_,
        inv.calm_update ⟨nofun, nofun⟩⟩
      obtain ⟨rfl, -⟩ | ⟨other, old⟩ := sleeps_update sleeps
      · exact (states u isHeld).trans (if_pos rfl)
      · exact ((states u (inv.sleeper old)).trans (if_neg other)).trans (inv.sleeping u old)
    | yield line =>
      have lock : LockPart s.word s.ncli s.on (Function.update s.pc t .asleep) :=
        inv.lock.goto nofun nofun
      refine ⟨waiters, lock.switch nofun nofun nofun, fun u sleeps => inv.sleeping u ?_,
        inv.calm_update ⟨nofun, nofun⟩⟩
      obtain ⟨rfl, -⟩ | ⟨-, old⟩ := sleeps_update sleeps
      · exact .inl line
      · exact old
    | panic line | retry line => exact absurd line (inv.calm t).1
    | @refuse d b line unlocked =>
      exact absurd (inv.lock.releasing here (.inl line)).2.1 (inv.lock.nobody unlocked t d b)
    | @unlock d b line =>
      obtain ⟨rfl, has, -⟩ := inv.lock.releasing here (.inl line)
      exact inv.plain waiters (inv.lock.unlock here has) rfl trivial
        fun _ _ => rfl
    | wake line => exact absurd ⟨c, t, _, _, rfl, here, line⟩ quiet

/-- **When the hand-off is sound.** From an initialised mutex, as long as no release found a waiting
thread: the next step keeps the contract of the hand-off exactly if it is not the end of a release that
did. -/
theorem handoff_iff {free : List Word} {events : List (MutexEvent C)} {start : MutexSys C}
    (fresh : MutexFresh L held start free)
    (run : Run (fun s e s' => ¬ Wakes s e ∧ MutexStep L held s e s') start events s)
    (step : MutexStep L held s event s') : HandoffFine s event s' ↔ ¬ Wakes s event := by
  have inv : HandoffInv L held s :=
    run.keeps (HandoffInv L held) (fun _ _ _ inv both => inv.step both.2 both.1) fresh.handoff
  constructor
  · intro fine wakes
    obtain ⟨c, t, d, b, _, _, _, next, here, line, -, rfl⟩ := step.woken wakes
    obtain ⟨rfl, -, deeper⟩ := inv.lock.releasing here (.inr line)
    -- The release keeps the level of the spinlock.
    have level : s.ncli d = b := (fine.2 d t d b next here (.inr line)).2
    bv_omega
  · intro quiet
    refine ⟨fun t => ((inv.step step quiet).calm t).2 _, fun c t d b next here line => ?_⟩
    subst next
    rcases line with line | line
    · obtain ⟨rfl, has, deeper⟩ := inv.lock.releasing here (.inl line)
      have locked : s.isLocked ≠ 0 := fun unlocked => inv.lock.nobody unlocked t d b has
      cases step with
      | next hereU busy done =>
        cases hereU.symm.trans here
        rw [MutexSys.next, line] at done
        cases (if_neg locked).symm.trans done
        refine ⟨.inl rfl, ?_⟩
        show Function.update s.ncli d (s.ncli d - 1) d = b
        rw [Function.update_self]
        bv_omega
    · exact absurd ⟨c, t, d, b, rfl, here, line⟩ quiet

/-! ### Calls that return -/

/-- A step that is not the end of a release that found a waiting thread, and fits. -/
def QuietStep (L : Layout) (held : Word → Prop) (s : MutexSys C) (event : MutexEvent C)
    (s' : MutexSys C) : Prop :=
  ¬ Wakes s event ∧ WaiterFits s event ∧ MutexStep L held s event s'

/-- A line of a thread that is neither about to wake another nor about to store `WAIT`. -/
theorem quiet_line (s' : MutexSys C) (here : s.on c = some t) (busy : (s.pc t).Busy)
    (line : s.pc t ≠ .wait ∧ ∀ d b, s.pc t ≠ .waking d b) (done : s.next L c t = .ok s') :
    QuietStep L held s (.next c) s' := by
  have quiet : ¬ Wakes s (.next c) := by
    rintro ⟨_, u, d, b, ⟨⟩, hereU, waking⟩
    cases hereU.symm.trans here
    exact line.2 d b waking
  refine ⟨quiet, ⟨fun wakes => absurd wakes quiet, ?_⟩, .next here busy done⟩
  rintro _ u ⟨⟩ hereU waits
  cases hereU.symm.trans here
  exact absurd waits line.1

/-- A step that is not a line of a thread. -/
theorem quiet_other (step : MutexStep L held s event s') (other : ∀ d, event ≠ .next d) :
    QuietStep L held s event s' := by
  have quiet : ¬ Wakes s event := fun ⟨d, _, _, _, same, _⟩ => other d same
  exact ⟨quiet, ⟨fun wakes => absurd wakes quiet, fun d _ same => absurd same (other d)⟩, step⟩

/-- An acquisition of a free mutex returns. -/
theorem take_run (isHeld : held t) (idle : s.on c = none) (elsewhere : ∀ d, s.on d ≠ some t)
    (out : s.pc t = .outside) (free : s.word = 0) :
    Run (QuietStep L held) s [.dispatch c t, .acquire c, .next c, .next c]
      { s with
        word := 1, ncli := Function.update s.ncli c (s.ncli c + 1),
        on := Function.update s.on c (some t),
        pc := Function.update s.pc t (.locked c (s.ncli c)) } := by
  have here : Function.update s.on c (some t) c = some t := Function.update_self ..
  have unlocked : s.word.setWidth 8 = (0 : BitVec 8) := by
    rw [free]
    rfl
  refine .cons (quiet_other (.dispatch idle isHeld elsewhere (.inl out)) nofun) ?_
  refine .cons (quiet_other (.acquire here out) nofun) ?_
  refine .cons (quiet_line { s with
    ncli := Function.update s.ncli c (s.ncli c + 1), on := Function.update s.on c (some t),
    pc := Function.update s.pc t (.spin (s.ncli c)) } here ?_ ?_ ?_)
    (.cons (quiet_line _ here ?_ ?_ ?_) (.nil _))
  · simp [MutexSys.goto, MutexPc.Busy]
  · simp [MutexSys.goto]
  · simp [MutexSys.next, MutexSys.goto, MutexSys.isLocked, unlocked]
  · simp [MutexPc.Busy]
  · simp
  · simp [MutexSys.next, MutexSys.goto, free]

/-- An acquisition of a taken mutex queues the thread and puts it to sleep. -/
theorem block_run {f : Word} {free : List Word} {nodes : List (Word × Word)}
    (list : WaitList L held s.phys s.threadList s.queued (f :: free) nodes) (isHeld : held t)
    (idle : s.on c = none) (elsewhere : ∀ d, s.on d ≠ some t) (out : s.pc t = .outside)
    (locked : s.isLocked ≠ 0) :
    ∃ phys threadList nodes', WaitList L held phys threadList (s.queued ++ [t]) free nodes' ∧
      threadState phys.mem t = SchedState.wait.raw ∧
      (∀ u, held u → u ≠ t → threadState phys.mem u = threadState s.phys.mem u) ∧
      Run (QuietStep L held) s [.dispatch c t, .acquire c, .next c, .next c, .next c, .next c]
        { s with
          phys := phys, threadList := threadList, pc := Function.update s.pc t .asleep,
          queued := s.queued ++ [t] } := by
  have here : Function.update s.on c (some t) c = some t := Function.update_self ..
  have byte : s.word.setWidth 8 ≠ (0 : BitVec 8) := locked
  obtain ⟨threadList, phys, done, pushed, same⟩ := list.push isHeld
  obtain ⟨waits, states⟩ := pushed.change isHeld .wait
  refine ⟨{ phys with mem := changeThreadState phys.mem t .wait }, threadList, _, waits,
    (states t isHeld).trans (if_pos rfl), fun u isHeldU other => ?_, ?_⟩
  · exact ((states u isHeldU).trans (if_neg other)).trans (same u isHeldU)
  · have on : Function.update (Function.update s.on c (some t)) c none = s.on := by
      rw [Function.update_idem, ← idle, Function.update_eq_self]
    refine .cons (quiet_other (.dispatch idle isHeld elsewhere (.inl out)) nofun) ?_
    refine .cons (quiet_other (.acquire here out) nofun) ?_
    refine .cons (quiet_line { s with
      on := Function.update s.on c (some t), pc := Function.update s.pc t .push } here ?_ ?_ ?_) ?_
    · simp [MutexSys.goto, MutexPc.Busy]
    · simp [MutexSys.goto]
    · simp only [MutexSys.next, MutexSys.goto, MutexSys.isLocked, Function.update_self, if_neg byte,
        Function.update_idem]
    refine .cons (quiet_line { s with
      phys := phys, threadList := threadList, queued := s.queued ++ [t],
      on := Function.update s.on c (some t), pc := Function.update s.pc t .wait } here ?_ ?_ ?_) ?_
    · simp [MutexPc.Busy]
    · simp
    · simp [MutexSys.next, MutexSys.goto, done]
    -- The thread is still queued when it stores `WAIT`.
    refine .cons (t := { s with
      phys := { phys with mem := changeThreadState phys.mem t .wait }, threadList := threadList,
      queued := s.queued ++ [t], on := Function.update s.on c (some t),
      pc := Function.update s.pc t .yield }) ⟨?_, ⟨?_, ?_⟩, .next here ?_ ?_⟩
      (.cons (quiet_line _ here ?_ ?_ ?_) (.nil _))
    · rintro ⟨_, u, d, b, ⟨⟩, hereU, waking⟩
      cases hereU.symm.trans here
      simp at waking
    · rintro ⟨_, u, d, b, ⟨⟩, hereU, waking⟩
      cases hereU.symm.trans here
      simp at waking
    · rintro _ u ⟨⟩ hereU -
      cases hereU.symm.trans here
      exact List.mem_append_right _ List.mem_cons_self
    · simp [MutexPc.Busy]
    · simp [MutexSys.next, MutexSys.goto]
    · simp [MutexPc.Busy]
    · simp
    · simp [MutexSys.next, MutexSys.goto, on]

/-- The last step of a release that finds waiting threads: it wakes the first and empties the list. -/
theorem wake_step {free : List Word} {nodes : List (Word × Word)} {b : BitVec 32} {w : Word}
    {rest : List Word} (list : WaitList L held s.phys s.threadList s.queued free nodes)
    (queued : s.queued = w :: rest) (here : s.on c = some t) (line : s.pc t = .waking c b) :
    ∃ phys, Runnable phys.mem w ∧
      (∀ u, held u → u ≠ w → threadState phys.mem u = threadState s.phys.mem u) ∧
      MutexStep L held s (.next c) { s with
        phys := phys, threadList := 0, pc := Function.update s.pc t .outside, queued := rest } := by
  have waiting : s.queued ≠ [] := by
    rw [queued]
    exact List.cons_ne_nil _ _
  obtain ⟨_, _, phys, _, first, done, empty, same⟩ := list.pop waiting
  obtain ⟨rfl, rfl⟩ := List.cons.inj (queued.symm.trans first)
  have isHeld := list.isHeld w (queued ▸ List.mem_cons_self)
  have states := (empty.change isHeld .runnable).2
  refine ⟨{ phys with mem := changeThreadState phys.mem w .runnable },
    (states w isHeld).trans (if_pos rfl), fun u isHeldU other => ?_, .next here ?_ ?_⟩
  · exact ((states u isHeldU).trans (if_neg other)).trans (same u isHeldU)
  · rw [line]
    trivial
  · simp [MutexSys.next, MutexSys.goto, line, done, queued]

/-! ### Two runs that go wrong -/

/-- Three thread pages. -/
def mutexThreads (t : Word) : Prop := t = 0x200000 ∨ t = 0x201000 ∨ t = 0x202000

/-- An initialised mutex, two CPUs and two free pages. -/
def demoMutex : MutexSys Bool where
  phys := ⟨store64 (fun _ => 0) 0x203000 0x204000, 0x203000⟩
  word := 0
  threadList := 0
  ncli _ := 0
  on _ := none
  pc _ := .outside
  queued := []

theorem demoMutex_fresh :
    MutexFresh demoLayout mutexThreads demoMutex [0x203000, 0x204000] where
  list := by
    refine ⟨by decide +kernel, by decide, ?_⟩
    simp only [List.forall_mem_cons]
    exact ⟨by decide, by decide, by simp⟩
  page := by
    rintro t (rfl | rfl | rfl)
    · exact ⟨by decide, by decide⟩
    · exact ⟨by decide, by decide⟩
    · exact ⟨by decide, by decide⟩
  unlocked := rfl
  empty := rfl
  none := rfl
  on _ := rfl
  pc _ := rfl

/-- The first thread has the mutex, on the first CPU. -/
def demoTaken : MutexSys Bool :=
  { demoMutex with
    word := 1, ncli := Function.update (fun _ => 0) false 1,
    on := Function.update (fun _ => none) false (some 0x200000),
    pc := Function.update (fun _ => .outside) 0x200000 (.locked false 0) }

theorem demoTaken_run : Run (QuietStep demoLayout mutexThreads) demoMutex
    [.dispatch false 0x200000, .acquire false, .next false, .next false] demoTaken :=
  take_run (.inl rfl) rfl nofun rfl rfl

/-- A release without waiting threads. -/
theorem handoff_iff_unlock :
    ∃ s, s.pc 0x200000 = .unlocking false 0 ∧ ∃ s', HandoffFine s (.next false) s' := by
  have release : MutexStep demoLayout mutexThreads demoTaken (.release false)
      (demoTaken.goto 0x200000 (demoTaken.releaseMutex false 0)) := .release rfl rfl
  have run := demoTaken_run.append (.cons (quiet_other release nofun) (.nil _))
  refine ⟨_, rfl, _, (handoff_iff demoMutex_fresh
    (run.mono fun _ _ _ step => ⟨step.1, step.2.2⟩) (.next (t := 0x200000) rfl trivial rfl)).mpr ?_⟩
  rintro ⟨_, t, d, b, ⟨⟩, here, line⟩
  cases here
  cases line

/-- The first thread has the mutex, and others wait. -/
def demoBlocked (phys : Phys) (threadList : Word) (queued : List Word) : MutexSys Bool :=
  { demoTaken with
    phys := phys, threadList := threadList, queued := queued,
    pc := fun t => if t ∈ queued then .asleep else demoTaken.pc t }

/-- One more thread waits, on the second CPU. -/
theorem demoBlocked_run {phys : Phys} {threadList t f : Word} {queued free : List Word}
    {nodes : List (Word × Word)}
    (list : WaitList demoLayout mutexThreads phys threadList queued (f :: free) nodes)
    (isHeld : mutexThreads t) (other : t ≠ 0x200000) (fresh : t ∉ queued) :
    ∃ phys' threadList' nodes',
      WaitList demoLayout mutexThreads phys' threadList' (queued ++ [t]) free nodes' ∧
      threadState phys'.mem t = SchedState.wait.raw ∧
      (∀ u, mutexThreads u → u ≠ t → threadState phys'.mem u = threadState phys.mem u) ∧
      ∃ events, Run (QuietStep demoLayout mutexThreads) (demoBlocked phys threadList queued) events
        (demoBlocked phys' threadList' (queued ++ [t])) := by
  have elsewhere : ∀ d, (demoBlocked phys threadList queued).on d ≠ some t := by
    rintro (_ | _) here
    · exact other (Option.some.inj here).symm
    · cases here
  have out : (demoBlocked phys threadList queued).pc t = .outside := by
    dsimp only [demoBlocked, demoTaken]
    rw [if_neg fresh, Function.update_of_ne other]
  have locked : (demoBlocked phys threadList queued).isLocked ≠ 0 := show (1 : BitVec 8) ≠ 0 by decide
  obtain ⟨phys', threadList', nodes', list', waits, same, run⟩ :=
    block_run (s := demoBlocked phys threadList queued) (c := true) list isHeld rfl elsewhere out
      locked
  refine ⟨phys', threadList', nodes', list', waits, same, _, cast (congrArg (Run _ _ _) ?_) run⟩
  refine congrArg (fun pc => { demoTaken with
    phys := phys', threadList := threadList', queued := queued ++ [t], pc := pc }) (funext fun u => ?_)
  by_cases own : u = t
  · rw [own, Function.update_self, if_pos (List.mem_append_right _ List.mem_cons_self)]
  · rw [Function.update_of_ne own]
    refine if_congr ?_ rfl rfl
    rw [List.mem_append, List.mem_singleton, or_iff_left own]

/-- The first thread calls `release_mutex`. -/
theorem demoBlocked_release {phys : Phys} {threadList : Word} {w : Word} {rest free : List Word}
    {nodes : List (Word × Word)}
    (list : WaitList demoLayout mutexThreads phys threadList (w :: rest) free nodes)
    (other : 0x200000 ∉ w :: rest) :
    QuietStep demoLayout mutexThreads (demoBlocked phys threadList (w :: rest)) (.release false)
      ((demoBlocked phys threadList (w :: rest)).goto 0x200000 (.waking false 0)) := by
  have line : (demoBlocked phys threadList (w :: rest)).releaseMutex false 0 = .waking false 0 :=
    if_neg fun zero => List.cons_ne_nil w rest (list.eq_zero_iff.mp zero)
  have has : (demoBlocked phys threadList (w :: rest)).pc 0x200000 = .locked false 0 := if_neg other
  rw [← line]
  exact quiet_other (.release rfl has) nofun

/-- The last step of this release. -/
theorem demoBlocked_wake {phys : Phys} {threadList : Word} {w : Word} {rest free : List Word}
    {nodes : List (Word × Word)}
    (list : WaitList demoLayout mutexThreads phys threadList (w :: rest) free nodes) :
    ∃ phys', Runnable phys'.mem w ∧
      (∀ u, mutexThreads u → u ≠ w → threadState phys'.mem u = threadState phys.mem u) ∧
      MutexStep demoLayout mutexThreads
        ((demoBlocked phys threadList (w :: rest)).goto 0x200000 (.waking false 0)) (.next false)
        { (demoBlocked phys threadList (w :: rest)).goto 0x200000 (.waking false 0) with
          phys := phys', threadList := 0, queued := rest,
          pc := Function.update ((demoBlocked phys threadList (w :: rest)).goto 0x200000
            (.waking false 0)).pc 0x200000 .outside } :=
  wake_step (s := (demoBlocked phys threadList (w :: rest)).goto 0x200000 (.waking false 0))
    (c := false) (t := 0x200000) (b := 0) list rfl rfl (by simp [MutexSys.goto])

/-- The first thread has the mutex, and the second waits. -/
theorem demoBlocked_second : ∃ phys threadList nodes events,
    WaitList demoLayout mutexThreads phys threadList [0x201000] [0x204000] nodes ∧
      Run (QuietStep demoLayout mutexThreads) demoMutex events
        (demoBlocked phys threadList [0x201000]) := by
  have start : Run (QuietStep demoLayout mutexThreads) demoMutex _ (demoBlocked demoMutex.phys 0 []) :=
    demoTaken_run
  obtain ⟨phys, threadList, nodes, list, -, -, events, block⟩ := demoBlocked_run
    (t := 0x201000) demoMutex_fresh.waitList (.inr (.inl rfl)) (by decide) nofun
  exact ⟨phys, threadList, nodes, _, list, start.append block⟩

/-- **The woken thread panics**: a thread has the mutex, another waits, the mutex is released. -/
theorem handoff_panics :
    ∃ events s, Run (MutexStep demoLayout mutexThreads) demoMutex events s ∧
      s.pc 0x201000 = .panicked "acquire_mutex: spinlock in not free" := by
  obtain ⟨phys, threadList, nodes, events, list, block⟩ := demoBlocked_second
  have release := demoBlocked_release list (by decide)
  obtain ⟨phys', runnable, -, wake⟩ := demoBlocked_wake list
  have quiet := block.append (.cons release (.nil _))
  have run := (quiet.mono fun _ _ _ step => step.2.2).append (.cons wake (.nil _))
  have elsewhere : ∀ d, demoTaken.on d ≠ some 0x201000 := by decide
  refine ⟨_, _, run.append (.cons (.resume (c := true) (t := 0x201000) rfl elsewhere rfl runnable)
    (.cons (.next (c := true) (t := 0x201000) rfl ?_ rfl) (.nil _))), rfl⟩
  exact trivial

/-- The release of a mutex that one thread waits for wakes it. -/
theorem waiters_iff_wake :
    ∃ s s', s.queued = [0x201000] ∧ WaiterFine demoLayout mutexThreads s (.next false) s' := by
  obtain ⟨phys, threadList, nodes, events, list, block⟩ := demoBlocked_second
  have release := demoBlocked_release list (by decide)
  obtain ⟨phys', -, -, wake⟩ := demoBlocked_wake list
  have quiet := block.append (.cons release (.nil _))
  refine ⟨_, _, rfl, (waiters_iff demoMutex_fresh (quiet.mono fun _ _ _ step => step.2) wake).mpr
    ⟨fun _ => rfl, ?_⟩⟩
  rintro _ t ⟨⟩ here line
  cases here
  cases line

/-- **A waiting thread is lost**: two threads wait, and the release of the mutex wakes one of them. -/
theorem waiter_lost :
    ∃ events s, Run (MutexStep demoLayout mutexThreads) demoMutex events s ∧
      Waiting s 0x202000 ∧ s.threadList = 0 := by
  obtain ⟨phys, threadList, nodes, _, list, block⟩ := demoBlocked_second
  obtain ⟨phys', threadList', nodes', list', waits, -, _, block'⟩ := demoBlocked_run
    (t := 0x202000) list (.inr (.inr rfl)) (by decide) (by decide)
  have release := demoBlocked_release list' (by decide)
  obtain ⟨phys'', -, same, wake⟩ := demoBlocked_wake list'
  have quiet := (block.append block').append (.cons release (.nil _))
  refine ⟨_, _, (quiet.mono fun _ _ _ step => step.2.2).append (.cons wake (.nil _)), ⟨.inr rfl, ?_⟩,
    rfl⟩
  exact (same 0x202000 (.inr (.inr rfl)) (by decide)).trans waits

end ShipOS
