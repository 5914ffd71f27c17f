/-
**The subsystems of the kernel as clients of the page allocator.**

The page tables, the processes with their lists, the threads with the run queues of the scheduler, and
the other callers of `kalloc` share one free list. What each of them relies on is in its variables and
in its own pages.

* `KernelStep` — the calls of all of them on one state;
* `tablesClient`, `processClient`, `schedClient`, `pageClient` — what a subsystem relies on, and that it
  depends on nothing else;
* `TablesIn.pageTree`, `ProcessesIn.heap`, `ThreadsIn.queues` — with the free list, these are the
  invariants of the modules.
-/

import ShipOS.Lib.Runs
import ShipOS.Paging.Frame
import ShipOS.Paging.Permissions
import ShipOS.Sched.Pages
import ShipOS.Sched.Processes

namespace ShipOS

open ByteMem PathTree Ring Pool Runs

/-! ### The state and the calls -/

structure KernelState (n : Nat) where
  phys : Phys
  cpus : Fin (n + 1) → PerCpu
  /-- The threads made by `create_thread`. -/
  threads : List Word
  procList : Word
  currentPid : Word
  /-- The processes made by `allocproc`. -/
  procs : List Word
  /-- The pages that other callers of `kalloc` have. -/
  pages : List Word

namespace KernelState

variable {n : Nat} (k : KernelState n)

def sched : Sched n := ⟨k.phys, k.cpus⟩

/-- The processes; threads belong to the scheduler. -/
def processes : ProcKernel := ⟨⟨k.phys, k.procList, k.currentPid⟩, k.procs, []⟩

/-- The same memory, with nothing on the free list. -/
def emptied : KernelState n := { k with phys := { k.phys with freelist := 0 } }

end KernelState

inductive Subsystem
  | paging
  | processes
  | scheduler
  | others
  deriving DecidableEq, Repr

inductive KernelCall (n : Nat)
  | mapping (call : MappingCall)
  | process (call : ProcCall)
  | createThread (startFunction : Word) (argc : BitVec 32) (args : Word)
  | changeThreadState (thread : Word) (newState : SchedState)
  | sched (call : SchedCall n)
  | kalloc
  | kfree (pa : Word)
  | write (addr : Word) (byte : Byte)

def KernelCall.subsystem {n : Nat} : KernelCall n → Subsystem
  | .mapping _ => .paging
  | .process _ => .processes
  | .createThread .. => .scheduler
  | .changeThreadState .. => .scheduler
  | .sched _ => .scheduler
  | .kalloc => .others
  | .kfree _ => .others
  | .write .. => .others

/-- The calls of `proc.c` and `threads.c` on processes and lists. -/
def ProcCall.OnLists : ProcCall → Prop
  | .createThread .. => False
  | .changeThreadState .. => False
  | _ => True

variable {n : Nat}

/-- **A call that returns**, on the kernel's own processes, threads and pages. -/
inductive KernelStep (L : Layout) (root : Word) :
    KernelState n → KernelCall n → KernelState n → Prop
  | mapping {k : KernelState n} {call : MappingCall} {phys : Phys}
      (done : MappingStep root k.phys call phys) :
      KernelStep L root k (.mapping call) { k with phys := phys }
  | process {k : KernelState n} {call : ProcCall} {k' : ProcKernel} (lists : call.OnLists)
      (done : ProcStep L k.processes call k') :
      KernelStep L root k (.process call)
        { k with phys := k'.s.phys, procList := k'.s.procList, currentPid := k'.s.currentPid,
                 procs := k'.procs }
  | createThread {k : KernelState n} {startFunction args thread : Word} {argc : BitVec 32} {phys : Phys}
      (done : createThread startFunction argc args k.phys = .ok (thread, phys)) :
      KernelStep L root k (.createThread startFunction argc args)
        { k with phys := phys, threads := k.threads ++ [thread] }
  | changeThreadState {k : KernelState n} {thread : Word} {newState : SchedState}
      (made : thread ∈ k.threads) :
      KernelStep L root k (.changeThreadState thread newState)
        { k with phys := { k.phys with mem := changeThreadState k.phys.mem thread newState } }
  | sched {k : KernelState n} {call : SchedCall n} {s : Sched n}
      (done : SchedStep L (· ∈ k.threads) k.sched call s) :
      KernelStep L root k (.sched call) { k with phys := s.phys, cpus := s.cpus }
  | kalloc {k : KernelState n} {p : Word} {phys : Phys} (done : kalloc k.phys = (p, phys)) :
      KernelStep L root k .kalloc
        { k with phys := phys, pages := if p = 0 then k.pages else p :: k.pages }
  | kfree {k : KernelState n} {pa : Word} {phys : Phys} (mine : pa ∈ k.pages)
      (done : kfree L pa k.phys = .ok phys) :
      KernelStep L root k (.kfree pa) { k with phys := phys, pages := k.pages.erase pa }
  | write {k : KernelState n} {p addr : Word} {byte : Byte} (mine : p ∈ k.pages)
      (inside : Within p 4096 addr) :
      KernelStep L root k (.write addr byte)
        { k with phys := { k.phys with mem := Function.update k.phys.mem addr byte } }

/-! ### Pages that stay the same -/

/-- A page has the same contents in both states. -/
def SamePage (p : Word) (k k' : KernelState n) : Prop :=
  PageAligned p → SameOn p 4096 k.phys.mem k'.phys.mem

variable {L : Layout} {root p : Word} {k k' : KernelState n} {free : List Word} {R : Set Word}

theorem SamePage.load64 (same : SamePage p k k') (aligned : PageAligned p) {i : Nat} (hi : i < 512) :
    load64 k'.phys.mem (slot p i) = load64 k.phys.mem (slot p i) :=
  ((same aligned).mono (slot_inside hi)).load64

/-- Pages that are written are not other ones. -/
theorem samePage_of_only (k k' : KernelState n) {ps : List Word}
    (only : OnlyPages ps k.phys.mem k'.phys.mem) (aligned : ∀ q ∈ ps, PageAligned q)
    (off : p ∉ ps) : SamePage p k k' := by
  intro alignedP a inside
  have place : a = p + BitVec.ofNat 64 (a - p).toNat := by
    rw [BitVec.ofNat_toNat, BitVec.setWidth_eq, BitVec.add_comm, BitVec.sub_add_cancel]
  rw [place]
  exact only.byte aligned alignedP off inside

/-- A list whose nodes stay the same stays the same. -/
theorem Queue.samePages {head : Word} {q : List (Word × Word)} (queue : Queue k.phys.mem head q)
    (pages : NodePages L q) (same : ∀ x ∈ q, SamePage x.1 k k') : Queue k'.phys.mem head q := by
  have field : ∀ x ∈ q, ∀ i < 512, load64 k'.phys.mem (slot x.1 i) = load64 k.phys.mem (slot x.1 i) :=
    fun x member i hi => (same x member).load64 (pages.page x member).aligned hi
  refine ⟨queue.head_eq, queue.ring.frame (fun a member => ?_) fun a member => ?_, fun x member => ?_⟩
  · obtain ⟨x, inside, rfl⟩ := List.mem_map.mp member
    exact field x inside 1 (by decide)
  · obtain ⟨x, inside, rfl⟩ := List.mem_map.mp member
    exact field x inside 2 (by decide)
  · exact (field x member 0 (by decide)).trans (queue.data x member)

/-! ### The clients -/

/-- The page tables below `root`. -/
def TablesIn (L : Layout) (root : Word) (k : KernelState n) (R : Set Word) : Prop :=
  PageTree L k.emptied.phys root [] ∧
    ∀ q : List (Fin 512), ∀ t, q.length ≤ 3 → tableAt k.phys.mem root q = some t → t ∈ R

theorem TablesIn.sameEntries (tables : TablesIn L root k R) (same : ∀ p ∈ R, SamePage p k k') :
    SameEntries root k.phys.mem k'.phys.mem := by
  intro q a i within found
  exact (same a (tables.2 q a within found)).load64 (tableAt_aligned tables.1.aligned found) i.isLt

theorem TablesIn.congr (tables : TablesIn L root k R) (same : ∀ p ∈ R, SamePage p k k') :
    TablesIn L root k' R := by
  have entries := tables.sameEntries same
  refine ⟨⟨⟨freeList_nil rfl, tables.1.aligned, fun p q a shortP shortQ first second => ?_,
    fun _ _ _ _ => List.not_mem_nil⟩, fun q t within found => ?_⟩, fun q t within found => ?_⟩
  · exact tables.1.unique p q a shortP shortQ ((entries.tableAt shortP).symm.trans first)
      ((entries.tableAt shortQ).symm.trans second)
  · exact tables.1.nonNull q t within ((entries.tableAt within).symm.trans found)
  · exact tables.2 q t within ((entries.tableAt within).symm.trans found)

def tablesClient (L : Layout) (root : Word) : Client (KernelState n) Word SamePage where
  Inv := TablesIn L root
  Regs _ _ := True
  refl _ := trivial
  trans _ _ := trivial
  congr tables _ same := tables.congr same

/-- The processes, and the nodes of their lists. -/
def ProcessesIn (L : Layout) (k : KernelState n) (R : Set Word) : Prop :=
  ∃ role nodes, ProcHeap L k.emptied.processes role [] nodes ∧ (∀ p ∈ k.procs, p ∈ R) ∧
    ∀ v, ∀ x ∈ nodes v, x.1 ∈ R

/-- The variables of `proc.c`. -/
structure SameProcRegs (k k' : KernelState n) : Prop where
  procList : k'.procList = k.procList
  currentPid : k'.currentPid = k.currentPid
  procs : k'.procs = k.procs

theorem ListVar.get_samePages {v : ListVar} (of : v.Of k.procs) (page : ∀ p ∈ k.procs, IsPage L p)
    (same : ∀ p ∈ k.procs, SamePage p k k') (list : Word) :
    v.get k'.phys.mem list = v.get k.phys.mem list := by
  cases v with
  | procList => rfl
  | threads proc => exact (same proc of).load64 (page proc of).aligned (by decide)

theorem ProcessesIn.congr (inv : ProcessesIn L k R) (regs : SameProcRegs k k')
    (same : ∀ p ∈ R, SamePage p k k') : ProcessesIn L k' R := by
  obtain ⟨role, nodes, heap, procsIn, nodesIn⟩ := inv
  obtain ⟨procList, currentPid, procs⟩ := regs
  have page : ∀ p ∈ k.procs, IsPage L p := fun p member => (heap.lists.process p member).2
  refine ⟨role, nodes, ⟨⟨?_, heap.lists.node, heap.lists.nodup, fun v of => ?_, ?_⟩, freeList_nil rfl,
    List.forall_mem_nil _, List.forall_mem_nil _, fun p member => ?_⟩, ?_, nodesIn⟩
  · rw [show k'.emptied.processes.procs = k.procs from procs]
    exact heap.lists.process
  · rw [show k'.emptied.processes.procs = k.procs from procs] at of
    have head : v.get k'.phys.mem k'.procList = v.get k.phys.mem k.procList := by
      rw [procList]
      exact ListVar.get_samePages of page (fun p member => same p (procsIn p member)) _
    rw [show k'.emptied.processes.s.procList = k'.procList from rfl]
    change Queue k'.phys.mem (v.get k'.phys.mem k'.procList) (nodes v)
    rw [head]
    exact Queue.samePages (k := k) (heap.lists.queue v of) (heap.lists.nodePages v)
      fun x member => same x.1 (nodesIn v x member)
  · rw [show k'.emptied.processes.procs = k.procs from procs]
    exact heap.lists.members
  · rw [show k'.emptied.processes.procs = k.procs from procs] at member
    exact ((same p (procsIn p member)).load64 (page p member).aligned (by decide)).trans
      (heap.pid p member)
  · rw [procs]
    exact procsIn

def processClient (L : Layout) : Client (KernelState n) Word SamePage where
  Inv := ProcessesIn L
  Regs := SameProcRegs
  refl _ := ⟨rfl, rfl, rfl⟩
  trans first second := ⟨second.procList.trans first.procList,
    second.currentPid.trans first.currentPid, second.procs.trans first.procs⟩
  congr := ProcessesIn.congr

/-- The threads, and the nodes of the run queues. -/
def ThreadsIn (L : Layout) (k : KernelState n) (R : Set Word) : Prop :=
  ∃ nodes, Queues L (· ∈ k.threads) k.emptied.sched [] nodes ∧ CurrentHeld (· ∈ k.threads) k.sched ∧
    (∀ t ∈ k.threads, t ∈ R) ∧ ∀ c, ∀ x ∈ nodes c, x.1 ∈ R

/-- The variables of the scheduler. -/
structure SameSchedRegs (k k' : KernelState n) : Prop where
  cpus : k'.cpus = k.cpus
  threads : k'.threads = k.threads

theorem ThreadsIn.congr (inv : ThreadsIn L k R) (regs : SameSchedRegs k k')
    (same : ∀ p ∈ R, SamePage p k k') : ThreadsIn L k' R := by
  obtain ⟨nodes, queues, current, threadsIn, nodesIn⟩ := inv
  obtain ⟨cpus, threads⟩ := regs
  refine ⟨nodes, ⟨?_, freeList_nil rfl, fun c => ?_, fun c => ?_, fun c => ?_, fun c d => ?_⟩,
    fun c => ?_,
    ?_, nodesIn⟩
  · rw [threads]
    exact queues.occupancy
  · rw [show k'.emptied.sched.cpus = k.cpus from cpus]
    exact Queue.samePages (k := k) (queues.queue c) (queues.pages c)
      fun x member => same x.1 (nodesIn c x member)
  · rw [show k'.emptied.sched.cpus = k.cpus from cpus]
    exact queues.count c
  · rw [show k'.emptied.sched.cpus = k.cpus from cpus, threads]
    exact queues.idleHeld c
  · rw [show k'.emptied.sched.cpus = k.cpus from cpus]
    exact queues.notIdle c d
  · rw [show k'.sched.cpus = k.cpus from cpus, threads]
    exact current c
  · rw [threads]
    exact threadsIn

def schedClient (L : Layout) : Client (KernelState n) Word SamePage where
  Inv := ThreadsIn L
  Regs := SameSchedRegs
  refl _ := ⟨rfl, rfl⟩
  trans first second := ⟨second.cpus.trans first.cpus, second.threads.trans first.threads⟩
  congr := ThreadsIn.congr

/-- The pages of the other callers of `kalloc`. -/
structure PagesIn (L : Layout) (k : KernelState n) (R : Set Word) : Prop where
  nodup : k.pages.Nodup
  page : ∀ p ∈ k.pages, IsPage L p
  inside : ∀ p ∈ k.pages, p ∈ R

def pageClient (L : Layout) : Client (KernelState n) Word SamePage where
  Inv := PagesIn L
  Regs k k' := k'.pages = k.pages
  refl _ := rfl
  trans first second := second.trans first
  congr inv regs _ := ⟨regs ▸ inv.nodup, regs ▸ inv.page, regs ▸ inv.inside⟩

def kernelClient (L : Layout) (root : Word) : Subsystem → Client (KernelState n) Word SamePage
  | .paging => tablesClient L root
  | .processes => processClient L
  | .scheduler => schedClient L
  | .others => pageClient L

/-- The pages on the free list. -/
def FreePages (L : Layout) (k : KernelState n) (F : Set Word) : Prop :=
  ∃ free, FreeList L k.phys free ∧ ∀ p, p ∈ F ↔ p ∈ free

/-! ### With the free list -/

variable {F : Set Word}

theorem TablesIn.pageTree (tables : TablesIn L root k R) (list : FreeList L k.phys free)
    (apart : ∀ p ∈ R, p ∉ free) : PageTree L k.phys root free :=
  ⟨⟨list, tables.1.aligned, tables.1.unique,
    fun q t within found => apart t (tables.2 q t within found)⟩, tables.1.nonNull⟩

/-- What `role` says of the free pages does not matter to the lists. -/
theorem ProcessesIn.heap (inv : ProcessesIn L k R) (list : FreeList L k.phys free)
    (apart : ∀ p ∈ R, p ∉ free) : ∃ role nodes, ProcHeap L k.processes role free nodes ∧
      (∀ p ∈ k.procs, p ∈ R) ∧ ∀ v, ∀ x ∈ nodes v, x.1 ∈ R := by
  obtain ⟨role, nodes, heap, procsIn, nodesIn⟩ := inv
  refine ⟨fun p => if p ∈ free then .free else role p, nodes, ⟨⟨fun p member => ?_,
    fun v x member => ?_,
    heap.lists.nodup, heap.lists.queue, heap.lists.members⟩, list, fun p member => if_pos member,
    List.forall_mem_nil _, heap.pid⟩, procsIn, nodesIn⟩
  · obtain ⟨process, page⟩ := heap.lists.process p member
    exact ⟨(if_neg (apart p (procsIn p member))).trans process, page⟩
  · obtain ⟨node, page⟩ := heap.lists.node v x member
    exact ⟨(if_neg (apart x.1 (nodesIn v x member))).trans node, page⟩

theorem ThreadsIn.queues (inv : ThreadsIn L k R) (list : FreeList L k.phys free)
    (apart : ∀ p ∈ R, p ∉ free) : ∃ nodes, Queues L (· ∈ k.threads) k.sched free nodes ∧
      CurrentHeld (· ∈ k.threads) k.sched ∧ (∀ t ∈ k.threads, t ∈ R) ∧
        ∀ c, ∀ x ∈ nodes c, x.1 ∈ R := by
  obtain ⟨nodes, queues, current, threadsIn, nodesIn⟩ := inv
  obtain ⟨page, nodup, unique, queued, held⟩ := queues.occupancy
  refine ⟨nodes, ⟨⟨fun c x member => ?_, nodup, unique, queued, fun t made => ?_⟩, list, queues.queue,
    queues.count, queues.idleHeld, queues.notIdle⟩, current, threadsIn, nodesIn⟩
  · exact ⟨(page c x member).1, apart x.1 (nodesIn c x member)⟩
  · obtain ⟨pageT, -, other⟩ := held t made
    exact ⟨pageT, apart t (threadsIn t made), other⟩

end ShipOS
