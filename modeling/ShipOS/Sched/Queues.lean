/-
**The run queues of all CPUs in one memory.**

`Queues L held s free nodes` couples the scheduler's state with the allocator: `nodes c` are the ring
nodes of CPU `c` with their threads, in order from the head, and `held` are the thread pages. The
page and thread bookkeeping is `Occupancy`, which speaks of lists only; the rest reads memory.

* `Rings` — the part of it that speaks of the rings alone, which also holds before the idle threads
  exist; `Rings.set`: one CPU's queue replaced;
* `Queues.add`, `Queues.remove`, `Queues.getNext` — what the three run-queue functions do to `nodes`;
* `Queues.write` — a change of a thread page leaves the queues alone.
-/

import ShipOS.Sched.Code

namespace ShipOS

open ByteMem Ring

variable {n : Nat} {L : Layout} {held : Word → Prop} {s : Sched n} {free : List Word}
  {nodes : Fin (n + 1) → List (Word × Word)} {c : Fin (n + 1)}

/-! ### Who owns which page -/

/-- **Pages of the run queues**: the nodes are pages that are not free, each in one place, and no
node is a thread page. -/
structure NodeRoom (L : Layout) (held : Word → Prop) (free : List Word)
    (nodes : Fin (n + 1) → List (Word × Word)) : Prop where
  page : ∀ c, ∀ x ∈ nodes c, IsPage L x.1 ∧ x.1 ∉ free
  nodup : ∀ c, (nodes c).Nodup
  unique : ∀ c d, ∀ x ∈ nodes c, ∀ y ∈ nodes d, x.1 = y.1 → c = d ∧ x = y
  apart : ∀ t, held t → IsPage L t ∧ t ∉ free ∧ ∀ c, ∀ x ∈ nodes c, x.1 ≠ t

/-- **Pages and threads of the run queues**: the nodes are pages that are not free, one page and one
thread for each, and no node is a thread page. -/
structure Occupancy (L : Layout) (held : Word → Prop) (free : List Word)
    (nodes : Fin (n + 1) → List (Word × Word)) : Prop where
  page : ∀ c, ∀ x ∈ nodes c, IsPage L x.1 ∧ x.1 ∉ free
  nodup : ∀ c, (nodes c).Nodup
  unique : ∀ c d, ∀ x ∈ nodes c, ∀ y ∈ nodes d, x.1 = y.1 ∨ x.2 = y.2 → c = d ∧ x = y
  queued : ∀ c, ∀ x ∈ nodes c, held x.2
  apart : ∀ t, held t → IsPage L t ∧ t ∉ free ∧ ∀ c, ∀ x ∈ nodes c, x.1 ≠ t

/-- A thread is in no queue. -/
def Unqueued (nodes : Fin (n + 1) → List (Word × Word)) (t : Word) : Prop :=
  ∀ c, ∀ x ∈ nodes c, x.2 ≠ t

theorem Occupancy.room (occ : Occupancy L held free nodes) : NodeRoom L held free nodes :=
  ⟨occ.page, occ.nodup, fun c d x memberX y memberY same =>
    occ.unique c d x memberX y memberY (.inl same), occ.apart⟩

theorem NodeRoom.pages (room : NodeRoom L held free nodes) (c : Fin (n + 1)) :
    NodePages L (nodes c) := by
  refine ⟨fun x member => (room.page c x member).1, (room.nodup c).map_on ?_⟩
  exact fun x memberX y memberY same => (room.unique c c x memberX y memberY same).2

theorem mem_update {q : List (Word × Word)} {d : Fin (n + 1)} {x : Word × Word} :
    x ∈ Function.update nodes c q d ↔ (d = c ∧ x ∈ q) ∨ (d ≠ c ∧ x ∈ nodes d) := by
  by_cases here : d = c
  · subst here
    simp
  · simp [here]

theorem mem_push {f t : Word} {d : Fin (n + 1)} {x : Word × Word}
    (member : x ∈ Function.update nodes c (nodes c ++ [(f, t)]) d) :
    x ∈ nodes d ∨ (d = c ∧ x = (f, t)) := by
  rcases mem_update.mp member with ⟨rfl, inside⟩ | ⟨-, inside⟩
  · exact (List.mem_append.mp inside).imp_right fun new => ⟨rfl, List.mem_singleton.mp new⟩
  · exact .inl inside

/-- A free page becomes the last node of a queue. -/
theorem NodeRoom.push {f : Word} (room : NodeRoom L held (f :: free) nodes) (page : IsPage L f)
    (fresh : f ∉ free) (t : Word) :
    NodeRoom L held free (Function.update nodes c (nodes c ++ [(f, t)])) := by
  have notNew : ∀ {d x}, x ∈ nodes d → x.1 ≠ f := fun {d x} member same =>
    (room.page d x member).2 (same ▸ List.mem_cons_self)
  refine ⟨?_, ?_, ?_, ?_⟩
  · intro d x member
    rcases mem_push member with old | ⟨-, rfl⟩
    · obtain ⟨isPage, notFree⟩ := room.page d x old
      exact ⟨isPage, fun inside => notFree (List.mem_cons_of_mem _ inside)⟩
    · exact ⟨page, fresh⟩
  · intro d
    by_cases here : d = c
    · subst here
      rw [Function.update_self]
      refine List.nodup_append.mpr ⟨room.nodup d, List.nodup_singleton _, ?_⟩
      rintro x member y new rfl
      rw [List.mem_singleton] at new
      exact notNew member (congrArg Prod.fst new)
    · rw [Function.update_of_ne here]
      exact room.nodup d
  · intro d e x memberX y memberY same
    rcases mem_push memberX with oldX | ⟨rfl, rfl⟩
    · rcases mem_push memberY with oldY | ⟨rfl, rfl⟩
      · exact room.unique d e x oldX y oldY same
      · exact absurd same (notNew oldX)
    · rcases mem_push memberY with oldY | ⟨rfl, rfl⟩
      · exact absurd same.symm (notNew oldY)
      · exact ⟨rfl, rfl⟩
  · intro u heldU
    obtain ⟨isPage, notFree, notNode⟩ := room.apart u heldU
    refine ⟨isPage, fun inside => notFree (List.mem_cons_of_mem _ inside), fun d x member => ?_⟩
    rcases mem_push member with old | ⟨-, rfl⟩
    · exact notNode d x old
    · exact fun same => notFree (same ▸ List.mem_cons_self)

/-- A thread that is in no queue becomes the last of one. -/
theorem Occupancy.push {f t : Word} (occ : Occupancy L held (f :: free) nodes)
    (page : IsPage L f) (fresh : f ∉ free) (isHeld : held t) (unqueued : Unqueued nodes t) :
    Occupancy L held free (Function.update nodes c (nodes c ++ [(f, t)])) := by
  have room := occ.room.push (c := c) page fresh t
  refine ⟨room.page, room.nodup, ?_, ?_, room.apart⟩
  · intro d e x memberX y memberY same
    rcases same with same | same
    · exact room.unique d e x memberX y memberY same
    rcases mem_push memberX with oldX | ⟨rfl, rfl⟩
    · rcases mem_push memberY with oldY | ⟨rfl, rfl⟩
      · exact occ.unique d e x oldX y oldY (.inr same)
      · exact absurd same (unqueued d x oldX)
    · rcases mem_push memberY with oldY | ⟨rfl, rfl⟩
      · exact absurd same.symm (unqueued e y oldY)
      · exact ⟨rfl, rfl⟩
  · intro d x member
    rcases mem_push member with old | ⟨-, rfl⟩
    · exact occ.queued d x old
    · exact isHeld

/-- The same nodes in another order. -/
theorem Occupancy.perm {q : List (Word × Word)} (occ : Occupancy L held free nodes)
    (perm : q.Perm (nodes c)) : Occupancy L held free (Function.update nodes c q) := by
  have back : ∀ {d x}, x ∈ Function.update nodes c q d → x ∈ nodes d := by
    intro d x member
    rcases mem_update.mp member with ⟨rfl, inside⟩ | ⟨-, inside⟩
    · exact perm.mem_iff.mp inside
    · exact inside
  refine ⟨fun d x member => occ.page d x (back member), fun d => ?_,
    fun d e x memberX y memberY => occ.unique d e x (back memberX) y (back memberY),
    fun d x member => occ.queued d x (back member), fun u heldU => ?_⟩
  · by_cases here : d = c
    · subst here
      rw [Function.update_self]
      exact perm.nodup_iff.mpr (occ.nodup d)
    · rw [Function.update_of_ne here]
      exact occ.nodup d
  · obtain ⟨isPage, notFree, notNode⟩ := occ.apart u heldU
    exact ⟨isPage, notFree, fun d x member => notNode d x (back member)⟩

/-- A node leaves a queue and its page is free. -/
theorem Occupancy.remove {pre post : List (Word × Word)} {x₀ : Word × Word}
    (occ : Occupancy L held free nodes) (here : nodes c = pre ++ x₀ :: post) :
    Occupancy L held (x₀.1 :: free) (Function.update nodes c (pre ++ post)) := by
  have member₀ : x₀ ∈ nodes c := by
    rw [here]
    exact List.mem_append_right _ List.mem_cons_self
  have nodup := occ.nodup c
  rw [here] at nodup
  have gone : x₀ ∉ pre ++ post := (List.nodup_cons.mp (List.nodup_middle.mp nodup)).1
  have back : ∀ {d x}, x ∈ Function.update nodes c (pre ++ post) d → x ∈ nodes d ∧ x ≠ x₀ := by
    intro d x member
    rcases mem_update.mp member with ⟨rfl, inside⟩ | ⟨other, inside⟩
    · rw [here]
      exact ⟨(removed_sublist pre post x₀).subset inside, fun same => gone (same ▸ inside)⟩
    · refine ⟨inside, ?_⟩
      rintro rfl
      exact other (occ.unique d c x inside x member₀ (.inl rfl)).1
  refine ⟨fun d x member => ?_, fun d => ?_,
    fun d e x memberX y memberY => occ.unique d e x (back memberX).1 y (back memberY).1,
    fun d x member => occ.queued d x (back member).1, fun u heldU => ?_⟩
  · obtain ⟨inside, different⟩ := back member
    obtain ⟨isPage, notFree⟩ := occ.page d x inside
    refine ⟨isPage, fun free' => ?_⟩
    rcases List.mem_cons.mp free' with same | free'
    · exact different (occ.unique d c x inside x₀ member₀ (.inl same)).2
    · exact notFree free'
  · by_cases here' : d = c
    · subst here'
      rw [Function.update_self]
      exact nodup.sublist (removed_sublist pre post x₀)
    · rw [Function.update_of_ne here']
      exact occ.nodup d
  · obtain ⟨isPage, notFree, notNode⟩ := occ.apart u heldU
    refine ⟨isPage, fun free' => ?_, fun d x member => notNode d x (back member).1⟩
    rcases List.mem_cons.mp free' with same | free'
    · exact notNode c x₀ member₀ same.symm
    · exact notFree free'

/-! ### The invariant -/

/-- **Rings in memory**: every CPU's queue is the ring of its `nodes`, counted in `num_threads`. A
thread may be queued more than once. -/
structure Rings (L : Layout) (held : Word → Prop) (s : Sched n) (free : List Word)
    (nodes : Fin (n + 1) → List (Word × Word)) : Prop where
  room : NodeRoom L held free nodes
  list : FreeList L s.phys free
  queue : ∀ c, Queue s.phys.mem (s.cpus c).runQueue (nodes c)
  count : ∀ c, (s.cpus c).numThreads.toNat = (nodes c).length

/-- **The run-queue invariant.** -/
structure Queues (L : Layout) (held : Word → Prop) (s : Sched n) (free : List Word)
    (nodes : Fin (n + 1) → List (Word × Word)) : Prop where
  occupancy : Occupancy L held free nodes
  list : FreeList L s.phys free
  queue : ∀ c, Queue s.phys.mem (s.cpus c).runQueue (nodes c)
  count : ∀ c, (s.cpus c).numThreads.toNat = (nodes c).length
  idleHeld : ∀ c, held (s.cpus c).idleThread
  notIdle : ∀ c d, ∀ x ∈ nodes c, x.2 ≠ (s.cpus d).idleThread

theorem Queues.rings (inv : Queues L held s free nodes) : Rings L held s free nodes :=
  ⟨inv.occupancy.room, inv.list, inv.queue, inv.count⟩

theorem Queues.pages (inv : Queues L held s free nodes) (c : Fin (n + 1)) :
    NodePages L (nodes c) := inv.occupancy.room.pages c

/-- There are fewer nodes than pages. -/
theorem NodePages.length_le {q : List (Word × Word)} (pages : NodePages L q) :
    q.length ≤ 32768 := by
  have bound := pages_length_le pages.nodup fun p member => by
    obtain ⟨x, inside, rfl⟩ := List.mem_map.mp member
    exact pages.page x inside
  have top : L.bounds.phystop.toNat = 134217728 := rfl
  rwa [List.length_map, top] at bound

/-- The thread states are as they were. -/
def SameStates (held : Word → Prop) (m m' : Mem) : Prop :=
  ∀ t, held t → threadState m' t = threadState m t

/-- The states of the held threads are not in the pages of nodes. -/
theorem NodeRoom.sameStates {ps : List Word} {m m' : Mem} (room : NodeRoom L held free nodes)
    (only : OnlyPages ps m m') (aligned : ∀ p ∈ ps, PageAligned p)
    (pool : ∀ p ∈ ps, p ∈ free ∨ p ∈ (nodes c).map Prod.fst) : SameStates held m m' := by
  intro t isHeld
  obtain ⟨page, notFree, notNode⟩ := room.apart t isHeld
  refine only.load32 aligned page.aligned (fun inside => ?_) (by omega)
  rcases pool t inside with inFree | node
  · exact notFree inFree
  · obtain ⟨x, member, same⟩ := List.mem_map.mp node
    exact notNode c x member same

/-- **One CPU's queue replaced**, with the memory changed in the pages `ps` only. -/
theorem Rings.set {cpu : PerCpu} {phys : Phys} {free' : List Word} {q : List (Word × Word)}
    {ps : List Word} (inv : Rings L held s free nodes)
    (room : NodeRoom L held free' (Function.update nodes c q)) (list : FreeList L phys free')
    (queue : Queue phys.mem cpu.runQueue q) (count : cpu.numThreads.toNat = q.length)
    (aligned : ∀ p ∈ ps, PageAligned p) (apart : ∀ d, d ≠ c → ∀ y ∈ nodes d, y.1 ∉ ps)
    (only : OnlyPages ps s.phys.mem phys.mem) :
    Rings L held (s.set c cpu phys) free' (Function.update nodes c q) := by
  refine ⟨room, list, fun d => ?_, fun d => ?_⟩
  · by_cases here : d = c
    · subst here
      rw [Sched.set_self, Function.update_self]
      exact queue
    · rw [Sched.set_ne s here, Function.update_of_ne here]
      refine (inv.queue d).others (inv.room.pages d) aligned (fun p member => ?_) only
      obtain ⟨y, inside, rfl⟩ := List.mem_map.mp member
      exact apart d here y inside
  · by_cases here : d = c
    · subst here
      rw [Sched.set_self, Function.update_self]
      exact count
    · rw [Sched.set_ne s here, Function.update_of_ne here]
      exact inv.count d

theorem Queues.set {cpu : PerCpu} {phys : Phys} {free' : List Word} {q : List (Word × Word)}
    (inv : Queues L held s free nodes)
    (occ : Occupancy L held free' (Function.update nodes c q))
    (rings : Rings L held (s.set c cpu phys) free' (Function.update nodes c q))
    (sameIdle : cpu.idleThread = (s.cpus c).idleThread)
    (notIdle : ∀ x ∈ q, ∀ d, x.2 ≠ (s.cpus d).idleThread) :
    Queues L held (s.set c cpu phys) free' (Function.update nodes c q) := by
  have idle : ∀ d, ((s.set c cpu phys).cpus d).idleThread = (s.cpus d).idleThread := by
    intro d
    by_cases here : d = c
    · subst here
      rw [Sched.set_self, sameIdle]
    · rw [Sched.set_ne s here]
  refine ⟨occ, rings.list, rings.queue, rings.count, fun d => ?_, fun d e x member => ?_⟩
  · rw [idle]
    exact inv.idleHeld d
  · rw [idle]
    rcases mem_update.mp member with ⟨-, inside⟩ | ⟨-, inside⟩
    · exact notIdle x inside e
    · exact inv.notIdle d e x inside

/-- The invariant reads the queues, the counters and the idle threads of the records only. -/
theorem Queues.records {s' : Sched n} (inv : Queues L held s free nodes) (phys : s'.phys = s.phys)
    (same : ∀ d, (s'.cpus d).runQueue = (s.cpus d).runQueue ∧
      (s'.cpus d).numThreads = (s.cpus d).numThreads ∧
      (s'.cpus d).idleThread = (s.cpus d).idleThread) : Queues L held s' free nodes := by
  refine ⟨inv.occupancy, phys ▸ inv.list, fun d => ?_, fun d => ?_, fun d => ?_, fun d e => ?_⟩
  · rw [phys, (same d).1]
    exact inv.queue d
  · rw [(same d).2.1]
    exact inv.count d
  · rw [(same d).2.2]
    exact inv.idleHeld d
  · rw [(same e).2.2]
    exact inv.notIdle d e

/-- **A change of a thread page leaves the queues alone.** -/
theorem Rings.write {mem : Mem} {t : Word} (inv : Rings L held s free nodes) (isHeld : held t)
    (only : OnlyPage t s.phys.mem mem) :
    Rings L held { s with phys := { s.phys with mem := mem } } free nodes := by
  obtain ⟨page, notFree, notNode⟩ := inv.room.apart t isHeld
  have one := only.pages (List.mem_singleton_self t)
  have aligned : ∀ p ∈ [t], PageAligned p := List.forall_mem_singleton.mpr page.aligned
  refine ⟨inv.room, inv.list.other page.aligned notFree only, fun d => ?_, inv.count⟩
  refine (inv.queue d).others (inv.room.pages d) aligned (fun p member inside => ?_) one
  obtain ⟨x, node, rfl⟩ := List.mem_map.mp member
  exact notNode d x node (List.mem_singleton.mp inside)

theorem Queues.write {mem : Mem} {t : Word} (inv : Queues L held s free nodes) (isHeld : held t)
    (only : OnlyPage t s.phys.mem mem) :
    Queues L held { s with phys := { s.phys with mem := mem } } free nodes :=
  have rings := inv.rings.write isHeld only
  ⟨inv.occupancy, rings.list, rings.queue, inv.count, inv.idleHeld, inv.notIdle⟩

/-- The states of threads after one of them was changed. -/
theorem threadState_change (mem : Mem) {t u : Word} (state : SchedState) (alignedT : PageAligned t)
    (alignedU : PageAligned u) :
    threadState (changeThreadState mem t state) u =
      if u = t then state.raw else threadState mem u := by
  by_cases same : u = t
  · rw [if_pos same, same, threadState, changeThreadState, load32_store32_self]
  · rw [if_neg same, threadState, changeThreadState, load32_store32_apart]
    · rfl
    · have := t.isLt
      have := u.isLt
      have different : t.toNat ≠ u.toNat := fun equal => same (BitVec.eq_of_toNat_eq equal.symm)
      unfold PageAligned at alignedT alignedU
      unfold stateAddr
      constructor <;> bv_omega

theorem changeThreadState_only (mem : Mem) (t : Word) (state : SchedState) :
    OnlyPage t mem (changeThreadState mem t state) := by
  intro x outside
  refine if_neg fun inside => outside ?_
  have : stateAddr t = t + BitVec.ofNat 64 48 := rfl
  bv_omega

/-! ### The run-queue functions -/

/-- **`runqueue_add_unlocked`** appends the thread to the queue. -/
theorem Rings.add {f : Word} (inv : Rings L held s (f :: free) nodes) (t : Word) :
    ∃ cpu phys, runqueueAddUnlocked (s.cpus c) t s.phys = .ok (cpu, phys) ∧
      cpu.currentThread = (s.cpus c).currentThread ∧ cpu.idleThread = (s.cpus c).idleThread ∧
      Rings L held (s.set c cpu phys) free (Function.update nodes c (nodes c ++ [(f, t)])) ∧
      SameStates held s.phys.mem phys.mem := by
  have pageF := inv.list.page f List.mem_cons_self
  have fresh := (List.nodup_cons.mp inv.list.nodup).1
  obtain ⟨head, phys, pushed, list, queue, only⟩ := pushThreadList_spec t inv.list
    (inv.queue c) (inv.room.pages c) fun x member => (inv.room.page c x member).2
  have room := inv.room.push (c := c) pageF fresh t
  have aligned : ∀ p ∈ f :: (nodes c).map Prod.fst, PageAligned p :=
    List.forall_mem_cons.mpr ⟨pageF.aligned, (inv.room.pages c).aligned⟩
  have pool : ∀ p ∈ f :: (nodes c).map Prod.fst, p ∈ f :: free ∨ p ∈ (nodes c).map Prod.fst :=
    List.forall_mem_cons.mpr ⟨.inl List.mem_cons_self, fun _ => .inr⟩
  refine ⟨{ s.cpus c with runQueue := head, numThreads := (s.cpus c).numThreads + 1 }, phys, ?_, rfl,
    rfl, ?_, inv.room.sameStates (c := c) only aligned pool⟩
  · rw [runqueueAddUnlocked, pushed]
    rfl
  refine inv.set room list queue ?_ aligned ?_ only
  · have bound := (room.pages c).length_le
    rw [Function.update_self, List.length_append, List.length_singleton] at bound
    have one : (1 : BitVec 32).toNat = 1 := rfl
    dsimp only
    rw [BitVec.toNat_add, inv.count c, one, List.length_append, List.length_singleton]
    exact Nat.mod_eq_of_lt (by omega)
  · intro d other y member inside
    rcases List.mem_cons.mp inside with same | node
    · exact (inv.room.page d y member).2 (same ▸ List.mem_cons_self)
    · obtain ⟨x, memberX, same⟩ := List.mem_map.mp node
      exact other (inv.room.unique d c y member x memberX same.symm).1

theorem Queues.add {f t : Word} (inv : Queues L held s (f :: free) nodes) (isHeld : held t)
    (unqueued : Unqueued nodes t) (notIdle : ∀ d, t ≠ (s.cpus d).idleThread) :
    ∃ cpu phys, runqueueAddUnlocked (s.cpus c) t s.phys = .ok (cpu, phys) ∧
      cpu.currentThread = (s.cpus c).currentThread ∧ cpu.idleThread = (s.cpus c).idleThread ∧
      Queues L held (s.set c cpu phys) free (Function.update nodes c (nodes c ++ [(f, t)])) ∧
      SameStates held s.phys.mem phys.mem := by
  obtain ⟨cpu, phys, added, current, idle, rings, states⟩ := inv.rings.add (c := c) t
  have occ := inv.occupancy.push (c := c) (inv.list.page f List.mem_cons_self)
    (List.nodup_cons.mp inv.list.nodup).1 isHeld unqueued
  refine ⟨cpu, phys, added, current, idle, inv.set occ rings idle fun x member d => ?_, states⟩
  rcases List.mem_append.mp member with old | new
  · exact inv.notIdle c d x old
  · rw [List.mem_singleton.mp new]
    exact notIdle d

/-- A list is not null exactly when it has a node. -/
theorem Queue.head_zero_iff {mem : Mem} {head : Word} {q : List (Word × Word)}
    (queue : Queue mem head q) (pages : NodePages L q) : head = 0 ↔ q = [] := by
  rw [queue.head_eq]
  rcases q with _ | ⟨x, q⟩
  · exact iff_of_true rfl rfl
  · exact iff_of_false (pages.page x List.mem_cons_self).ne_zero (List.cons_ne_nil _ _)

/-- **The ring at `head` has the threads of `q`**, wherever it is read. -/
theorem Queue.holds_iff {mem : Mem} {head t : Word} {q : List (Word × Word)}
    (real : Queue mem head q) (pages : NodePages L q) :
    (head ≠ 0 ∧ ∃ r x, Queue mem head r ∧ (x, t) ∈ r) ↔ ∃ x, (x, t) ∈ q := by
  constructor
  · rintro ⟨nonempty, r, x, queue, member⟩
    obtain ⟨first, rest, rfl⟩ := List.exists_cons_of_ne_nil (List.ne_nil_of_mem member)
    have start : first.1 ∈ q.map Prod.fst := by
      cases q with
      | nil => exact absurd real.head_eq nonempty
      | cons z later =>
        have same : first.1 = z.1 := queue.head_eq.symm.trans real.head_eq
        rw [same]
        exact List.mem_cons_self
    have inside := real.ring.chain_subset start queue.ring.chain x
      (List.mem_map_of_mem (f := Prod.fst) member)
    obtain ⟨y, memberY, rfl⟩ := List.mem_map.mp inside
    have same : y.2 = t := (real.data y memberY).symm.trans (queue.data _ member)
    exact ⟨y.1, same ▸ memberY⟩
  · rintro ⟨x, member⟩
    refine ⟨fun null => ?_, q, x, real, member⟩
    rw [(real.head_zero_iff pages).mp null] at member
    exact absurd member List.not_mem_nil

/-- A round through a queue finds its first node with the property. -/
theorem scanQueue_eq {mem : Mem} {head : Word} {q : List (Word × Word)} (queue : Queue mem head q)
    (pages : NodePages L q) (nonempty : head ≠ 0) (found : Word → Bool) :
    scanQueue mem found head = .ok ((q.find? fun x => found x.1).map Prod.fst) := by
  have first := queue.head_eq
  have enough : (q.map Prod.fst).length < ptrFuel := by
    have bound := pages.length_le
    rw [List.length_map, ptrFuel]
    omega
  have scanned : scan (nodeNext mem) found head ptrFuel head =
      some ((q.map Prod.fst).find? found) := by
    rcases q with _ | ⟨x, q⟩
    · exact absurd first nonempty
    · rw [show head = x.1 from first]
      exact scan_eq queue.ring pages.nodup found (Nat.lt_of_succ_lt enough)
  rw [scanQueue, scanned, List.find?_map]
  rfl

section Remove

variable {t : Word}

/-- The node of a thread, as the scan of `runqueue_remove_unlocked` tests it. -/
theorem Queues.data_iff (inv : Queues L held s free nodes) {x : Word × Word} (member : x ∈ nodes c) :
    decide (nodeData s.phys.mem x.1 = t) = true ↔ x.2 = t := by
  rw [decide_eq_true_iff, (inv.queue c).data x member]

/-- **`runqueue_remove_unlocked`** of a thread that is not in the queue changes nothing. -/
theorem Queues.remove_absent (inv : Queues L held s free nodes)
    (absent : ∀ x ∈ nodes c, x.2 ≠ t) :
    runqueueRemoveUnlocked L (s.cpus c) t s.phys = .ok (false, s.cpus c, s.phys) := by
  rw [runqueueRemoveUnlocked]
  by_cases null : (s.cpus c).runQueue = 0
  · exact if_pos null
  · have unfound : (nodes c).find? (fun x => decide (nodeData s.phys.mem x.1 = t)) = none :=
      List.find?_eq_none.mpr fun x member same => absent x member ((inv.data_iff member).mp same)
    rw [if_neg null, scanQueue_eq (inv.queue c) (inv.pages c) null, unfound]
    rfl

/-- **`runqueue_remove_unlocked`** takes the thread's node out of the queue and frees it. -/
theorem Queues.remove_found {x : Word} {pre post : List (Word × Word)}
    (inv : Queues L held s free nodes) (here : nodes c = pre ++ (x, t) :: post) :
    ∃ cpu phys, runqueueRemoveUnlocked L (s.cpus c) t s.phys = .ok (true, cpu, phys) ∧
      cpu.currentThread = (s.cpus c).currentThread ∧ cpu.idleThread = (s.cpus c).idleThread ∧
      Queues L held (s.set c cpu phys) (x :: free) (Function.update nodes c (pre ++ post)) ∧
      SameStates held s.phys.mem phys.mem := by
  have member : (x, t) ∈ nodes c := by
    rw [here]
    exact List.mem_append_right _ List.mem_cons_self
  have found : (nodes c).find? (fun y => decide (nodeData s.phys.mem y.1 = t)) = some (x, t) := by
    refine List.find?_eq_some_iff_append.mpr
      ⟨(inv.data_iff member).mpr rfl, pre, post, here, fun y early => ?_⟩
    have memberY : y ∈ nodes c := by
      rw [here]
      exact List.mem_append_left _ early
    rw [Bool.not_eq_true', Bool.eq_false_iff]
    intro same
    have equal := (inv.occupancy.unique c c y memberY (x, t) member
      (.inr ((inv.data_iff memberY).mp same))).2
    have nodup := inv.occupancy.nodup c
    rw [here] at nodup
    exact (List.nodup_cons.mp (List.nodup_middle.mp nodup)).1
      (List.mem_append_left _ (equal ▸ early))
  have nonempty : (s.cpus c).runQueue ≠ 0 := by
    rw [ne_eq, (inv.queue c).head_zero_iff (inv.pages c)]
    exact List.ne_nil_of_mem member
  have queue := inv.queue c
  have pages := inv.pages c
  have apart := fun y inside => (inv.occupancy.page c y inside).2
  rw [here] at queue pages apart
  obtain ⟨head, phys, removed, list, queue', only⟩ := removeNode_spec inv.list queue pages apart
  rw [← here] at only
  refine ⟨{ s.cpus c with runQueue := head, numThreads := (s.cpus c).numThreads - 1 }, phys, ?_, rfl,
    rfl, ?_, inv.occupancy.room.sameStates only (inv.pages c).aligned fun _ => .inr⟩
  · rw [runqueueRemoveUnlocked, if_neg nonempty,
      scanQueue_eq (inv.queue c) (inv.pages c) nonempty, found, ok_bind]
    simp only [Option.map_some, removed, ok_bind]
  · have occ := inv.occupancy.remove here
    refine inv.set occ (inv.rings.set occ.room list queue' ?_ (inv.pages c).aligned ?_ only) rfl ?_
    · have one : (1 : BitVec 32).toNat = 1 := rfl
      have count := inv.count c
      rw [here, List.length_append, List.length_cons] at count
      dsimp only
      rw [BitVec.toNat_sub_of_le (by rw [BitVec.le_def, one]; omega), one, List.length_append]
      omega
    · intro d other y memberY inside
      obtain ⟨z, memberZ, same⟩ := List.mem_map.mp inside
      exact other (inv.occupancy.unique d c y memberY z memberZ (.inl same.symm)).1
    · intro y inside d
      refine inv.notIdle c d y ?_
      rw [here]
      exact (removed_sublist pre post (x, t)).subset inside

end Remove

/-! ### The round-robin scan -/

/-- `t->state == RUNNABLE`. -/
def Runnable (mem : Mem) (t : Word) : Prop := threadState mem t = SchedState.runnable.raw

instance (mem : Mem) (t : Word) : Decidable (Runnable mem t) := inferInstanceAs (Decidable (_ = _))

theorem Queues.runnable_iff (inv : Queues L held s free nodes) {x : Word × Word}
    (member : x ∈ nodes c) : nodeRunnable s.phys.mem x.1 = true ↔ Runnable s.phys.mem x.2 := by
  rw [nodeRunnable, decide_eq_true_iff, (inv.queue c).data x member, Runnable]

/-- The node after `x` is the head of the list turned behind `x`. -/
theorem Queue.next_eq {mem : Mem} {head : Word} {x : Word × Word} {pre post : List (Word × Word)}
    (queue : Queue mem head (pre ++ x :: post)) :
    nodeNext mem x.1 = listHead ((post ++ (pre ++ [x])).map Prod.fst) := by
  have ring := queue.ring_from
  rw [← List.append_assoc, List.map_append]
  cases rest : (post ++ pre).map Prod.fst with
  | nil =>
    rw [rest] at ring
    exact ((isRing_singleton x.1).mp ring).1
  | cons y ys =>
    rw [rest] at ring
    exact (List.isChain_cons_cons.mp ring.chain).1.1

/-- **A list may be read from any of its nodes.** -/
theorem Queue.turn {mem : Mem} {head : Word} {x : Word × Word} {pre post : List (Word × Word)}
    (queue : Queue mem head (pre ++ x :: post)) :
    Queue mem (nodeNext mem x.1) (post ++ (pre ++ [x])) := by
  have order : pre ++ x :: post = pre ++ [x] ++ post := List.append_cons pre x post
  refine ⟨queue.next_eq, ?_, fun y inside => queue.data y ?_⟩
  · rw [List.map_append]
    refine IsRing.rotate ?_
    rw [← List.map_append, ← order]
    exact queue.ring
  · rw [order]
    exact List.perm_append_comm.mem_iff.mp inside

/-- **`runqueue_get_next`** returns the first thread of the queue that is `RUNNABLE` and turns the
queue behind it, or returns null when there is none. -/
theorem Queues.getNext (inv : Queues L held s free nodes) (c : Fin (n + 1)) :
    ((∀ x ∈ nodes c, ¬ Runnable s.phys.mem x.2) ∧
      runqueueGetNext (s.cpus c) s.phys.mem = .ok (0, s.cpus c)) ∨
    ∃ pre x post cpu, nodes c = pre ++ x :: post ∧ (∀ y ∈ pre, ¬ Runnable s.phys.mem y.2) ∧
      Runnable s.phys.mem x.2 ∧ runqueueGetNext (s.cpus c) s.phys.mem = .ok (x.2, cpu) ∧
      cpu.currentThread = (s.cpus c).currentThread ∧ cpu.idleThread = (s.cpus c).idleThread ∧
      Queues L held (s.set c cpu s.phys) free (Function.update nodes c (post ++ (pre ++ [x]))) := by
  by_cases null : (s.cpus c).runQueue = 0
  · have empty := ((inv.queue c).head_zero_iff (inv.pages c)).mp null
    refine .inl ⟨by simp [empty], ?_⟩
    rw [runqueueGetNext, if_pos null]
  · have scanned := scanQueue_eq (inv.queue c) (inv.pages c) null (nodeRunnable s.phys.mem)
    cases search : (nodes c).find? (fun x => nodeRunnable s.phys.mem x.1) with
    | none =>
      refine .inl ⟨fun x member runnable => ?_, ?_⟩
      · exact List.find?_eq_none.mp search x member ((inv.runnable_iff member).mpr runnable)
      · rw [runqueueGetNext, if_neg null, scanned, search]
        rfl
    | some x =>
      obtain ⟨runnable, pre, post, here, before⟩ := List.find?_eq_some_iff_append.mp search
      have member : x ∈ nodes c := List.mem_of_find?_eq_some search
      have perm : (post ++ (pre ++ [x])).Perm (nodes c) := by
        rw [here, List.append_cons pre x post]
        exact List.perm_append_comm
      have queue := inv.queue c
      have turned : Queue s.phys.mem (nodeNext s.phys.mem x.1) (post ++ (pre ++ [x])) :=
        (here ▸ queue).turn
      refine .inr ⟨pre, x, post, { s.cpus c with runQueue := nodeNext s.phys.mem x.1 }, here,
        fun y early => ?_, (inv.runnable_iff member).mp runnable, ?_, rfl, rfl, ?_⟩
      · have memberY : y ∈ nodes c := by
          rw [here]
          exact List.mem_append_left _ early
        rw [← inv.runnable_iff memberY]
        simpa using before y early
      · rw [runqueueGetNext, if_neg null, scanned, search, ok_bind, Option.map_some]
        simp only [queue.data x member]
      · have occ := inv.occupancy.perm perm
        refine inv.set occ (inv.rings.set occ.room inv.list turned ?_ (by simp)
          (fun _ _ _ _ => List.not_mem_nil) (OnlyPages.refl [] _)) rfl ?_
        · exact (inv.count c).trans perm.length_eq.symm
        · exact fun y inside d => inv.notIdle c d y (perm.mem_iff.mp inside)

end ShipOS
