/-
**Running out of pages (`create_thread`, `push_thread_list`, `sched_add_thread`).**

None of the three checks what `kalloc` returns. With a free page for each allocation they take these
pages and write no others; with fewer, each of them stores through null.

* `CreatesCleanly`, `PushesCleanly`, `AddsCleanly` — what a call is to do in any state of the allocator:
  its work, or nothing with the same pages free;
* `failsCleanly_iff` — when it does.
-/

import ShipOS.Sched.Create
import ShipOS.Sched.RunQueues

namespace ShipOS

open ByteMem

variable {n : Nat} {L : Layout} {held : Word → Prop} {s : Phys} {sched : Sched n}
  {free : List Word} {nodes : Fin (n + 1) → List (Word × Word)} {head thread startFunction args : Word}
  {argc cpuIndex : BitVec 32} {q : List (Word × Word)}

/-- The same pages are free. -/
def SameFree (L : Layout) (free : List Word) (s : Phys) : Prop :=
  ∃ free', free'.Perm free ∧ FreeList L s free'

/-- **`create_thread` fails cleanly**: it returns a thread in three pages of the free list, or null with
the same pages free. -/
def CreatesCleanly (L : Layout) (s : Phys) (free : List Word) (startFunction : Word)
    (argc : BitVec 32) (args : Word) : Prop :=
  ∃ thread s', createThread startFunction argc args s = .ok (thread, s') ∧
    ((∃ stack kstack rest, free.Perm (thread :: stack :: kstack :: rest) ∧ FreeList L s' rest ∧
        load64 s'.mem (slot thread 2) = stack + pgsize ∧
        load64 s'.mem (slot thread 3) = kstack + pgsize ∧
        OnlyPages [thread, stack, kstack] s.mem s'.mem) ∨
      (thread = 0 ∧ SameFree L free s' ∧ OnlyPages free s.mem s'.mem))

/-- **`push_thread_list` fails cleanly**: it appends a node in a page of the free list, or leaves the
ring. -/
def PushesCleanly (L : Layout) (s : Phys) (free : List Word) (head : Word) (q : List (Word × Word))
    (thread : Word) : Prop :=
  ∃ head' s', pushThreadList head thread s = .ok (head', s') ∧
    ((∃ f rest, free.Perm (f :: rest) ∧ FreeList L s' rest ∧
        Queue s'.mem head' (q ++ [(f, thread)]) ∧ OnlyPages (f :: q.map Prod.fst) s.mem s'.mem) ∨
      (head' = head ∧ Queue s'.mem head q ∧ SameFree L free s' ∧ OnlyPages free s.mem s'.mem))

/-- **`sched_add_thread` fails cleanly**: it appends a node in a page of the free list to the queue of
one CPU, or leaves all queues. -/
def AddsCleanly (L : Layout) (held : Word → Prop) (sched : Sched n) (free : List Word)
    (nodes : Fin (n + 1) → List (Word × Word)) (thread : Word) (cpuIndex : BitVec 32) : Prop :=
  ∃ sched', schedAddThread thread cpuIndex sched = .ok sched' ∧
    ((∃ c f rest, free.Perm (f :: rest) ∧
        Rings L held sched' rest (Function.update nodes c (nodes c ++ [(f, thread)]))) ∨
      ∃ free', free'.Perm free ∧ Rings L held sched' free' nodes)

/-! ### When they do -/

theorem createsCleanly_iff (list : FreeList L s free) :
    CreatesCleanly L s free startFunction argc args ↔ 3 ≤ free.length := by
  constructor
  · rintro ⟨thread, s', done, -⟩
    by_contra few
    rw [createThread_short startFunction args argc list (Nat.not_le.mp few)] at done
    cases done
  · intro enough
    obtain ⟨thread, stack, kstack, rest, rfl⟩ := exists_three (Nat.not_lt.mpr enough)
    obtain ⟨s', done, list', only, built, kernelStack⟩ :=
      createThread_ok startFunction args argc list
    exact ⟨thread, s', done, .inl ⟨stack, kstack, rest, .refl _, list', built.stackTop, kernelStack,
      only⟩⟩

theorem pushesCleanly_iff (list : FreeList L s free) (queue : Queue s.mem head q)
    (pages : NodePages L q) (apart : ∀ x ∈ q, x.1 ∉ free) :
    PushesCleanly L s free head q thread ↔ 1 ≤ free.length := by
  cases free with
  | nil =>
    refine iff_of_false ?_ (Nat.not_succ_le_zero 0)
    rintro ⟨head', s', done, -⟩
    rw [pushThreadList_exhausted list] at done
    cases done
  | cons f rest =>
    refine iff_of_true ?_ (Nat.le_add_left 1 rest.length)
    obtain ⟨head', s', done, list', queue', only⟩ := pushThreadList_spec thread list queue pages apart
    exact ⟨head', s', done, .inl ⟨f, rest, .refl _, list', queue', only⟩⟩

theorem addsCleanly_iff (rings : Rings L held sched free nodes) (isHeld : held thread)
    (valid : cpuIndex.toInt < 0 ∨ cpuIndex.toNat < n + 1) :
    AddsCleanly L held sched free nodes thread cpuIndex ↔ 1 ≤ free.length := by
  have page := (rings.room.apart thread isHeld).1
  obtain ⟨c, target⟩ := schedAddThread_eq (s := sched) page.ne_zero valid
  have written := rings.write isHeld (changeThreadState_only sched.phys.mem thread .runnable)
  rw [AddsCleanly, target]
  cases free with
  | nil =>
    refine iff_of_false ?_ (Nat.not_succ_le_zero 0)
    rintro ⟨sched', done, -⟩
    rw [addTo, runqueueAddUnlocked, pushThreadList_exhausted written.list] at done
    cases done
  | cons f rest =>
    refine iff_of_true ?_ (Nat.le_add_left 1 rest.length)
    obtain ⟨cpu, phys, added, -, -, rings', -⟩ := written.add (c := c) thread
    refine ⟨_, ?_, .inl ⟨c, f, rest, .refl _, rings'⟩⟩
    rw [addTo, added]
    rfl

/-- **When creation and queueing fail cleanly**, in any state of the allocator: `create_thread` exactly
with three free pages or more, `push_thread_list` and `sched_add_thread` exactly with one or more, for
any ring and any run queues that are apart from the free pages. -/
theorem failsCleanly_iff (list : FreeList L s free) :
    (∀ startFunction argc args,
      CreatesCleanly L s free startFunction argc args ↔ 3 ≤ free.length) ∧
    (∀ head q thread, Queue s.mem head q → NodePages L q → (∀ x ∈ q, x.1 ∉ free) →
      (PushesCleanly L s free head q thread ↔ 1 ≤ free.length)) ∧
    ∀ (n : Nat) (sched : Sched n) held nodes thread (cpuIndex : BitVec 32), sched.phys = s →
      Rings L held sched free nodes → held thread →
      (cpuIndex.toInt < 0 ∨ cpuIndex.toNat < n + 1) →
      (AddsCleanly L held sched free nodes thread cpuIndex ↔ 1 ≤ free.length) :=
  ⟨fun _ _ _ => createsCleanly_iff list, fun _ _ _ => pushesCleanly_iff list,
    fun _ _ _ _ _ _ _ rings isHeld valid => addsCleanly_iff rings isHeld valid⟩

/-- Three free pages are enough for a thread. -/
theorem failsCleanly_three : CreatesCleanly demoLayout demoPhys [0x200000, 0x201000, 0x202000]
    0x104000 0 0 :=
  ((failsCleanly_iff demoPhys_list).1 0x104000 0 0).mpr (Nat.le_refl 3)

/-- **With two free pages `create_thread` stores through null**, and with none `push_thread_list`
does. -/
theorem exhausted_stores : (∃ s, FreeList demoLayout s [0x201000, 0x202000] ∧
      createThread 0x104000 0 0 s = .error .nullStore ∧
      ¬ CreatesCleanly demoLayout s [0x201000, 0x202000] 0x104000 0 0) ∧
    ∃ s, FreeList demoLayout s [] ∧ pushThreadList 0 0x200000 s = .error .nullStore ∧
      ¬ PushesCleanly demoLayout s [] 0 [] 0x200000 := by
  obtain ⟨s, -, two, -⟩ := kalloc_cons demoPhys_list
  have noPage : FreeList demoLayout ⟨fun _ => 0, 0⟩ [] := freeList_nil rfl
  refine ⟨⟨s, two, createThread_short _ _ _ two (by decide), fun clean => ?_⟩, _, noPage,
    pushThreadList_exhausted noPage _, fun clean => ?_⟩
  · exact absurd ((createsCleanly_iff two).mp clean) (by decide)
  · have empty : Queue (fun _ => 0) 0 [] := ⟨rfl, Ring.IsRing.nil, by simp⟩
    have nothing : NodePages demoLayout [] := ⟨by simp, List.nodup_nil⟩
    exact absurd ((pushesCleanly_iff noPage empty nothing (by simp)).mp clean) (by decide)

end ShipOS
