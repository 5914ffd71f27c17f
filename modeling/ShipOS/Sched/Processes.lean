/-
**Processes (`proc.c`).**

`allocproc` takes a page for the `struct proc` and one for its node in `proc_list`. It draws a number
from `generate_pid` and never stores it, so the field `pid` keeps what `kalloc` fills a page with.

A run is any sequence of calls of `allocproc`, of the list functions on `proc_list` and on the
`threads` of the processes made so far, of `create_thread` and of `change_thread_state`.

* `ProcHeap` — the lists, the free list and the pages of processes and threads, and every process
  with the same `pid`; `ProcHeap.step` is one call;
* `pids_distinct_iff` — after any run the pids in `proc_list` differ exactly when it holds no two
  processes.
-/

import ShipOS.Lib.Runs
import ShipOS.Sched.Create
import ShipOS.Sched.ProcLists

namespace ShipOS

open ByteMem Ring Runs

/-! ### The code -/

/-- Physical memory, `proc_list` and the `current_pid` of `generate_pid`. -/
structure Procs where
  phys : Phys
  procList : Word
  currentPid : Word

/-- `generate_pid`, whose `local_pid` is an `int`. -/
def generatePid (s : Procs) : Word × Procs :=
  let localPid : BitVec 32 := s.currentPid.setWidth 32
  (localPid.signExtend 64, { s with currentPid := s.currentPid + 1 })

/-- The stores of `allocproc` into the new process: `threads` and `killed`. -/
def initProc (mem : Mem) (proc : Word) : Mem :=
  let mem := store64 mem (slot proc 2) 0
  store32 mem (slot proc 1) 0

def allocproc (s : Procs) : Except Halt (Word × Procs) :=
  let (proc, phys) := kalloc s.phys
  if proc = 0 then .error (.panic "Failed to alloc proc\n")
  else do
    -- `pid` is a local variable of `allocproc` that is not used again.
    let (_pid, s) := generatePid { s with phys := phys }
    let phys := { s.phys with mem := initProc s.phys.mem proc }
    let (procList, phys) ← pushProcList s.procList proc phys
    .ok (proc, { s with phys := phys, procList := procList })

/-- The state with the processes and the threads made so far. -/
structure ProcKernel where
  s : Procs
  procs : List Word
  threads : List Word

/-- `*list = head` after the memory became `phys`. -/
def ProcKernel.setList (k : ProcKernel) (v : ListVar) (head : Word) (phys : Phys) : ProcKernel :=
  { k with s := { k.s with
      phys := { phys with mem := v.store head phys.mem }
      procList := v.assign head k.s.procList } }

/-- The head of a list. -/
def ProcKernel.head (k : ProcKernel) (v : ListVar) : Word := v.get k.s.phys.mem k.s.procList

inductive ProcCall
  | allocproc
  | createThread (startFunction : Word) (argc : BitVec 32) (args : Word)
  | changeThreadState (thread : Word) (newState : SchedState)
  | push (v : ListVar) (item : Word)
  | pop (v : ListVar)
  | shift (v : ListVar)
  | peek (v : ListVar)

def ProcCall.exec (L : Layout) : ProcCall → ProcKernel → Except Halt ProcKernel
  | .allocproc, k => do
    let (proc, s) ← ShipOS.allocproc k.s
    .ok { k with s := s, procs := k.procs ++ [proc] }
  | .createThread startFunction argc args, k => do
    let (thread, phys) ← ShipOS.createThread startFunction argc args k.s.phys
    .ok { k with s := { k.s with phys := phys }, threads := k.threads ++ [thread] }
  | .changeThreadState thread newState, k =>
    let mem := ShipOS.changeThreadState k.s.phys.mem thread newState
    .ok { k with s := { k.s with phys := { k.s.phys with mem := mem } } }
  | .push v item, k => do
    let (head, phys) ← v.push (k.head v) item k.s.phys
    .ok (k.setList v head phys)
  | .pop v, k => do
    let (_, head, phys) ← v.pop L (k.head v) k.s.phys
    .ok (k.setList v head phys)
  | .shift v, k => do
    let head ← v.shift (k.head v) k.s.phys.mem
    .ok (k.setList v head k.s.phys)
  | .peek v, k => do
    let _ ← v.peek (k.head v) k.s.phys.mem
    .ok k

/-- Calls are about processes and threads that exist; a thread list takes any pointer. -/
def ProcCall.Allowed (k : ProcKernel) : ProcCall → Prop
  | .changeThreadState thread _ => thread ∈ k.threads
  | .push v item => v.Of k.procs ∧ (v = .procList → item ∈ k.procs)
  | .pop v => v.Of k.procs
  | .shift v => v.Of k.procs
  | .peek v => v.Of k.procs
  | _ => True

/-- A call that returns. -/
structure ProcStep (L : Layout) (k : ProcKernel) (call : ProcCall) (k' : ProcKernel) : Prop where
  allowed : call.Allowed k
  done : call.exec L k = .ok k'

/-! ### The invariant -/

/-- What a word of a page reads after `kalloc`. -/
def junkWord : Word := 0x0505050505050505

/-- **The heap of processes**, in which every `pid` is what `kalloc` left there. -/
structure ProcHeap (L : Layout) (k : ProcKernel) (role : Word → Role) (free : List Word)
    (nodes : ListVar → List (Word × Word)) : Prop where
  lists : Lists L role k.procs k.s.phys.mem k.s.procList nodes
  list : FreeList L k.s.phys free
  unused : ∀ p ∈ free, role p = .free
  thread : ∀ t ∈ k.threads, role t = .thread ∧ IsPage L t
  pid : ∀ p ∈ k.procs, procPid k.s.phys.mem p = junkWord

variable {L : Layout} {k k' : ProcKernel} {role role' : Word → Role} {free free' : List Word}
  {nodes nodes' : ListVar → List (Word × Word)} {v : ListVar} {phys : Phys} {ps : List Word}

/-- A page with another role is another page. -/
theorem role_update {f p : Word} {r : Role} (other : role p ≠ role f) :
    Function.update role f r p = role p :=
  Function.update_of_ne (fun same => other (congrArg role same)) _ _

/-- The other free pages when one is used. -/
theorem unused_update {f : Word} {r : Role} (unused : ∀ p ∈ free, role p = .free)
    (fresh : f ∉ free) : ∀ p ∈ free, Function.update role f r p = .free := by
  intro p member
  have other : p ≠ f := fun same => fresh (same ▸ member)
  rw [Function.update_of_ne other]
  exact unused p member

theorem procPid_store {mem : Mem} {head p : Word} (aligned : PageAligned p)
    (own : ∀ q ∈ v.pages, PageAligned q) : procPid (v.store head mem) p = procPid mem p := by
  cases v with
  | procList => rfl
  | threads proc =>
    rw [procPid, ListVar.store, load64_store64_slot _ _ (own proc (List.mem_singleton_self proc))
      aligned (by omega) (by omega), if_neg (by omega)]
    rfl

/-- **Pages without a list change**, and threads are added. -/
theorem ProcHeap.others (heap : ProcHeap L k role free nodes) (threads : List Word)
    (aligned : ∀ p ∈ ps, PageAligned p) (unlisted : ∀ p ∈ ps, (role p).Unlisted)
    (only : OnlyPages ps k.s.phys.mem phys.mem)
    (kept : ∀ p, ¬ (role p).Unlisted → role' p = role p) (list : FreeList L phys free')
    (unused : ∀ p ∈ free', role' p = .free)
    (thread : ∀ t ∈ threads, role' t = .thread ∧ IsPage L t) :
    ProcHeap L { k with s := { k.s with phys := phys }, threads := threads } role' free' nodes := by
  refine ⟨heap.lists.others aligned unlisted only kept, list, unused, thread, fun p member => ?_⟩
  obtain ⟨process, page⟩ := heap.lists.process p member
  rw [← heap.pid p member]
  refine only.load64 aligned page.aligned (fun inside => ?_) (by omega)
  have listed := unlisted p inside
  rw [process] at listed
  exact listed

/-- **One list replaced.** -/
theorem ProcHeap.setList (heap : ProcHeap L k role free nodes) (of : v.Of k.procs) {head : Word}
    (lists : Lists L role' k.procs (v.store head phys.mem) (v.assign head k.s.procList) nodes')
    (aligned : ∀ p ∈ ps, PageAligned p)
    (touched : ∀ p ∈ ps, role p = .free ∨ role p = .node v)
    (only : OnlyPages ps k.s.phys.mem phys.mem)
    (kept : ∀ p, role p ≠ .free → role p ≠ .node v → role' p = role p)
    (list : FreeList L phys free') (unused : ∀ p ∈ free', role' p = .free) :
    ProcHeap L (k.setList v head phys) role' free' nodes' := by
  have own := lists.variable_process of
  have alignedOwn : ∀ p ∈ v.pages, PageAligned p := fun p member => (own p member).2.aligned
  refine ⟨lists, list.others alignedOwn (fun p member inside => ?_) ListVar.store_only, unused,
    fun t member => ?_, fun p member => ?_⟩
  · cases (unused p member).symm.trans (own p inside).1
  · obtain ⟨thread, page⟩ := heap.thread t member
    exact ⟨(kept t (by rw [thread]; nofun) (by rw [thread]; nofun)).trans thread, page⟩
  · obtain ⟨process, page⟩ := heap.lists.process p member
    refine (procPid_store page.aligned alignedOwn).trans ?_
    rw [← heap.pid p member]
    refine only.load64 aligned page.aligned (fun inside => ?_) (by omega)
    rcases touched p inside with free | node
    · cases process.symm.trans free
    · cases process.symm.trans node

/-! ### List functions -/

theorem ListVar.push_eq (v : ListVar) : v.push = pushThreadList := by
  cases v <;> rfl

/-- **A push** takes the first free page for the node. -/
theorem ProcHeap.push {f : Word} (heap : ProcHeap L k role (f :: free) nodes) (of : v.Of k.procs)
    {item : Word} (member : v = .procList → item ∈ k.procs) :
    ∃ head phys, v.push (k.head v) item k.s.phys = .ok (head, phys) ∧
      ProcHeap L (k.setList v head phys) (Function.update role f (.node v)) free
        (Function.update nodes v (nodes v ++ [(f, item)])) := by
  have unusedF := heap.unused f List.mem_cons_self
  obtain ⟨fresh, -⟩ := List.nodup_cons.mp heap.list.nodup
  have pageF := heap.list.page f List.mem_cons_self
  have pages := heap.lists.nodePages v
  have notFree : ∀ x ∈ nodes v, x.1 ∉ f :: free := by
    intro x inside free
    cases (heap.lists.node v x inside).1.symm.trans (heap.unused x.1 free)
  obtain ⟨head, phys, done, list, queue, only⟩ :=
    pushThreadList_spec item heap.list (heap.lists.queue v of) pages notFree
  have kept : ∀ p, role p ≠ .free → Function.update role f (.node v) p = role p :=
    fun p used => role_update (unusedF ▸ used)
  have aligned : ∀ p ∈ f :: (nodes v).map Prod.fst, PageAligned p :=
    List.forall_mem_cons.mpr ⟨pageF.aligned, pages.aligned⟩
  have touched : ∀ p ∈ f :: (nodes v).map Prod.fst, role p = .free ∨ role p = .node v := by
    refine List.forall_mem_cons.mpr ⟨.inl unusedF, fun p inside => .inr ?_⟩
    obtain ⟨x, old, rfl⟩ := List.mem_map.mp inside
    exact (heap.lists.node v x old).1
  have node : ∀ x ∈ nodes v ++ [(f, item)],
      Function.update role f (.node v) x.1 = .node v ∧ IsPage L x.1 := by
    intro x inside
    rcases List.mem_append.mp inside with old | new
    · obtain ⟨roleX, page⟩ := heap.lists.node v x old
      exact ⟨(kept x.1 (by rw [roleX]; nofun)).trans roleX, page⟩
    · rw [List.mem_singleton] at new
      subst new
      exact ⟨Function.update_self .., pageF⟩
  have nodup : ((nodes v ++ [(f, item)]).map Prod.fst).Nodup := by
    rw [List.map_append]
    refine List.Nodup.append pages.nodup (List.nodup_singleton f)
      (List.disjoint_singleton.mpr fun inside => ?_)
    obtain ⟨x, inside, same⟩ := List.mem_map.mp inside
    exact notFree x inside (same ▸ List.mem_cons_self)
  have lists := heap.lists.set of aligned touched only (fun p used _ => kept p used) queue node nodup
    (by
      rintro rfl x inside
      rcases List.mem_append.mp inside with old | new
      · exact heap.lists.members x old
      · rw [List.mem_singleton.mp new]
        exact member rfl)
  refine ⟨head, phys, ?_, heap.setList of lists aligned touched only (fun p used _ => kept p used)
    list (unused_update (List.forall_mem_of_forall_mem_cons heap.unused) fresh)⟩
  rw [v.push_eq]
  exact done

/-- **A pop** frees the head and empties the list. -/
theorem ProcHeap.pop (heap : ProcHeap L k role free nodes) (of : v.Of k.procs) {x : Word × Word}
    {rest : List (Word × Word)} (order : nodes v = x :: rest) :
    ∃ phys, v.pop L (k.head v) k.s.phys = .ok (x.2, 0, phys) ∧
      ProcHeap L (k.setList v 0 phys) (Function.update role x.1 .free) (x.1 :: free)
        (Function.update nodes v []) := by
  obtain ⟨roleX, page⟩ := heap.lists.node v x (order ▸ List.mem_cons_self)
  have notFree : x.1 ∉ free := fun inside => by
    cases roleX.symm.trans (heap.unused x.1 inside)
  have queue := heap.lists.queue v of
  rw [order] at queue
  obtain ⟨phys, done, list, only⟩ := popThreadList_spec heap.list queue page notFree
  have kept : ∀ p, role p ≠ .node v → Function.update role x.1 .free p = role p :=
    fun p other => role_update (roleX ▸ other)
  have aligned : ∀ p ∈ [x.1], PageAligned p := List.forall_mem_singleton.mpr page.aligned
  have touched : ∀ p ∈ [x.1], role p = .free ∨ role p = .node v :=
    List.forall_mem_singleton.mpr (.inr roleX)
  have lists := heap.lists.set of aligned touched (only.pages (List.mem_singleton_self _))
    (fun p _ other => kept p other) (q := []) ⟨rfl, IsRing.nil, nofun⟩ nofun List.nodup_nil
    (fun _ => nofun)
  refine ⟨phys, ?_, heap.setList of lists aligned touched (only.pages (List.mem_singleton_self _))
    (fun p _ other => kept p other) list ?_⟩
  · cases v with
    | procList =>
      have nonNull : k.head .procList ≠ 0 := by
        rw [ProcKernel.head, queue.head_eq]
        exact page.ne_zero
      rw [ListVar.pop, popProcList, if_neg nonNull]
      exact done
    | threads proc => exact done
  · exact List.forall_mem_cons.mpr ⟨Function.update_self .., unused_update heap.unused notFree⟩

theorem ProcHeap.shift (heap : ProcHeap L k role free nodes) (of : v.Of k.procs) {x : Word × Word}
    {rest : List (Word × Word)} (order : nodes v = x :: rest) :
    ∃ head, v.shift (k.head v) k.s.phys.mem = .ok head ∧
      ProcHeap L (k.setList v head k.s.phys) role free (Function.update nodes v (rest ++ [x])) := by
  obtain ⟨done, lists⟩ := heap.lists.shift of order
  have nothing : ∀ p ∈ ([] : List Word), PageAligned p := nofun
  exact ⟨_, done, heap.setList of lists nothing nofun (OnlyPages.refl _ _) (fun _ _ _ => rfl)
    heap.list heap.unused⟩

/-! ### New processes and threads -/

theorem Lists.addProcess {procs : List Word} {mem : Mem} {procList p : Word}
    (lists : Lists L role procs mem procList nodes) (process : role p = .process)
    (page : IsPage L p) (empty : procThreads mem p = 0) :
    Lists L role (procs ++ [p]) mem procList (Function.update nodes (.threads p) []) := by
  have emptied : ∀ {w x}, x ∈ Function.update nodes (.threads p) [] w → x ∈ nodes w := by
    intro w x member
    by_cases here : w = .threads p
    · rw [here, Function.update_self] at member
      cases member
    · rwa [Function.update_of_ne here] at member
  refine ⟨fun q member => ?_, fun w x member => lists.node w x (emptied member), ?_, ?_,
    fun x member => List.mem_append_left _ (lists.members x (emptied member))⟩
  · rcases List.mem_append.mp member with old | new
    · exact lists.process q old
    · rw [List.mem_singleton.mp new]
      exact ⟨process, page⟩
  · exact (Function.forall_update_iff nodes fun _ q => (q.map Prod.fst).Nodup).mpr
      ⟨List.nodup_nil, fun w _ => lists.nodup w⟩
  · refine (Function.forall_update_iff nodes fun w q => w.Of (procs ++ [p]) →
      Queue mem (w.get mem procList) q).mpr ⟨fun _ => ?_, fun w other of => lists.queue w ?_⟩
    · rw [ListVar.get, empty]
      exact ⟨rfl, IsRing.nil, List.forall_mem_nil _⟩
    · cases w with
      | procList => trivial
      | threads q =>
        refine (List.mem_append.mp of).resolve_right fun new => other ?_
        rw [List.mem_singleton.mp new]

section InitProc

variable {mem : Mem} {p : Word}

theorem initProc_only : OnlyPage p mem (initProc mem p) := by
  refine (onlyPage_store mem 2 0 (by omega)).trans fun x outside => ?_
  refine if_neg fun inside => outside ?_
  have : slot p 1 = p + BitVec.ofNat 64 (8 * 1) := rfl
  bv_omega

/-- Of the words of a process only the second and the third are written. -/
theorem load64_initProc {i : Nat} (other : i ≠ 1) (hi : i < 512) :
    load64 (initProc mem p) (slot p i) = load64 (store64 mem (slot p 2) 0) (slot p i) := by
  refine congrArg (BitVec.ofNat 64) (readLE_writeLE_apart _ _ ?_)
  unfold slot
  constructor <;> bv_omega

theorem procThreads_initProc : procThreads (initProc mem p) p = 0 := by
  rw [procThreads, load64_initProc (by decide) (by decide), load64_store64_self]

theorem procPid_initProc (aligned : PageAligned p) :
    procPid (initProc mem p) p = procPid mem p := by
  rw [procPid, load64_initProc (by decide) (by decide),
    load64_store64_slot _ _ aligned aligned (by decide) (by decide), if_neg (by omega)]
  rfl

end InitProc

/-- The `pid` of a page from `kalloc`. -/
theorem procPid_kalloc {s t : Phys} {p : Word} (nonNull : p ≠ 0) (taken : kalloc s = (p, t)) :
    procPid t.mem p = junkWord := by
  rw [kalloc] at taken
  split at taken
  · cases taken
    rw [procPid, memset, load64_fill _ _ (slot_inside (by omega)) (by omega)]
    simp only [load64, readLE]
    decide
  · exact absurd (congrArg Prod.fst taken).symm nonNull

/-- **A new process**, on two free pages. -/
theorem ProcHeap.allocproc {p f : Word} (heap : ProcHeap L k role (p :: f :: free) nodes) :
    ∃ s role', allocproc k.s = .ok (p, s) ∧
      ProcHeap L { k with s := s, procs := k.procs ++ [p] } role' free
        (Function.update (Function.update nodes (.threads p) []) .procList
          (nodes .procList ++ [(f, p)])) := by
  have page := heap.list.page p List.mem_cons_self
  have unused := heap.unused p List.mem_cons_self
  obtain ⟨fresh, -⟩ := List.nodup_cons.mp heap.list.nodup
  obtain ⟨t, taken, list, only⟩ := kalloc_cons heap.list
  have kept : ∀ q, role q ≠ .free → Function.update role p .process q = role q :=
    fun q used => role_update (unused ▸ used)
  -- The page of the process, not yet in a list.
  have heap₁ : ProcHeap L { k with s := { k.s with phys := { t with mem := initProc t.mem p } } }
      (Function.update role p .process) (f :: free) nodes := by
    refine heap.others k.threads (List.forall_mem_singleton.mpr page.aligned)
      (List.forall_mem_singleton.mpr ?_) ((only.trans initProc_only).pages (List.mem_singleton_self p))
      (fun q listed => kept q fun free => listed ?_) (list.other page.aligned fresh initProc_only)
      (unused_update (List.forall_mem_of_forall_mem_cons heap.unused) fresh) (fun u member => ?_)
    · rw [unused]
      trivial
    · rw [free]
      trivial
    · obtain ⟨thread, pageU⟩ := heap.thread u member
      exact ⟨(kept u (by rw [thread]; nofun)).trans thread, pageU⟩
  have heap₂ : ProcHeap L
      { k with
        s := { k.s with phys := { t with mem := initProc t.mem p }, currentPid := k.s.currentPid + 1 }
        procs := k.procs ++ [p] }
      (Function.update role p .process) (f :: free) (Function.update nodes (.threads p) []) := by
    refine ⟨heap₁.lists.addProcess (Function.update_self ..) page procThreads_initProc, heap₁.list,
      heap₁.unused, heap₁.thread, fun q member => ?_⟩
    rcases List.mem_append.mp member with old | new
    · exact heap₁.pid q old
    · rw [List.mem_singleton.mp new]
      exact (procPid_initProc page.aligned).trans (procPid_kalloc page.ne_zero taken)
  have last : p ∈ k.procs ++ [p] := List.mem_append_right _ (List.mem_singleton_self p)
  obtain ⟨head, phys, done, heap₃⟩ := heap₂.push (v := .procList) trivial fun _ => last
  rw [Function.update_of_ne (show ListVar.procList ≠ .threads p by nofun)] at heap₃
  refine ⟨_, _, ?_, heap₃⟩
  have pushed : pushProcList k.s.procList p { t with mem := initProc t.mem p } = .ok (head, phys) :=
    done
  simp only [ShipOS.allocproc, taken, page.ne_zero, if_false, generatePid]
  rw [pushed]
  rfl

/-- `allocproc` only returns when two pages are free. -/
theorem ProcHeap.allocproc_pages (heap : ProcHeap L k role free nodes) {r : Word × Procs}
    (made : ShipOS.allocproc k.s = .ok r) : ∃ p f rest, free = p :: f :: rest := by
  rcases free with _ | ⟨p, _ | ⟨f, rest⟩⟩
  · rw [ShipOS.allocproc, kalloc_nil heap.list] at made
    cases made
  · obtain ⟨t, taken, list, -⟩ := kalloc_cons heap.list
    have page := heap.list.page p List.mem_cons_self
    have exhausted : pushThreadList k.s.procList p { t with mem := initProc t.mem p } = _ :=
      pushThreadList_exhausted (list.other page.aligned List.not_mem_nil initProc_only) p
    simp only [ShipOS.allocproc, taken, page.ne_zero, if_false, generatePid, pushProcList,
      exhausted] at made
    cases made
  · exact ⟨p, f, rest, rfl⟩

/-- **A new thread**, on the first three free pages. -/
theorem ProcHeap.createThread (heap : ProcHeap L k role free nodes) {startFunction args t : Word}
    {argc : BitVec 32} (done : createThread startFunction argc args k.s.phys = .ok (t, phys)) :
    ∃ role' free', ProcHeap L
      { k with s := { k.s with phys := phys }, threads := k.threads ++ [t] } role' free' nodes := by
  obtain ⟨stack, kstack, rest, rfl, list, only, -⟩ := createThread_spec heap.list done
  have aligned : ∀ p ∈ [t, stack, kstack], PageAligned p := fun p member =>
    (heap.list.page p (List.mem_append_left rest member)).aligned
  have unused : ∀ p ∈ [t, stack, kstack], role p = .free := fun p member =>
    heap.unused p (List.mem_append_left rest member)
  have apart : ∀ p ∈ rest, p ∉ [t, stack, kstack] := fun p later early =>
    List.disjoint_of_nodup_append (heap.list.nodup : ([t, stack, kstack] ++ rest).Nodup) early later
  have pageT := heap.list.page t List.mem_cons_self
  -- The two stacks are used, but by no list.
  let role' : Word → Role := fun p =>
    if p = t then .thread else if p ∈ [t, stack, kstack] then .other else role p
  have kept : ∀ p, p ∉ [t, stack, kstack] → role' p = role p := by
    intro p off
    have other : p ≠ t := fun same => off (same ▸ List.mem_cons_self)
    exact (if_neg other).trans (if_neg off)
  have used : ∀ p, role p ≠ .free → role' p = role p := fun p other =>
    kept p fun member => other (unused p member)
  refine ⟨role', rest, heap.others _ aligned (fun p member => ?_) only
    (fun p listed => used p fun free => listed ?_) list (fun p member => ?_) (fun u member => ?_)⟩
  · rw [unused p member]
    trivial
  · rw [free]
    trivial
  · rw [kept p (apart p member)]
    exact heap.unused p (List.mem_append_right [t, stack, kstack] member)
  · rcases List.mem_append.mp member with old | new
    · obtain ⟨thread, page⟩ := heap.thread u old
      exact ⟨(used u (by rw [thread]; nofun)).trans thread, page⟩
    · rw [List.mem_singleton.mp new]
      exact ⟨if_pos rfl, pageT⟩

/-! ### Runs -/

theorem ProcHeap.changeThreadState (heap : ProcHeap L k role free nodes) {t : Word}
    (made : t ∈ k.threads) (newState : SchedState) :
    ProcHeap L { k with s := { k.s with phys := { k.s.phys with
      mem := changeThreadState k.s.phys.mem t newState } } } role free nodes := by
  obtain ⟨thread, page⟩ := heap.thread t made
  have only := changeThreadState_only k.s.phys.mem t newState
  have notFree : t ∉ free := fun inside => by
    cases thread.symm.trans (heap.unused t inside)
  refine heap.others k.threads (List.forall_mem_singleton.mpr page.aligned)
    (List.forall_mem_singleton.mpr ?_) (only.pages (List.mem_singleton_self t)) (fun _ _ => rfl)
    (heap.list.other page.aligned notFree only) heap.unused heap.thread
  rw [thread]
  trivial

theorem ListVar.pop_ne_zero {head : Word} {r : Word × Word × Phys}
    (popped : v.pop L head phys = .ok r) : head ≠ 0 := by
  rintro rfl
  cases v <;> cases popped

theorem ListVar.shift_ne_zero {mem : Mem} {head r : Word} (shifted : v.shift head mem = .ok r) :
    head ≠ 0 := by
  rintro rfl
  cases v <;> cases shifted

/-- A list function that returned had a list. -/
theorem ProcHeap.nonempty (heap : ProcHeap L k role free nodes) (of : v.Of k.procs)
    (nonNull : k.head v ≠ 0) : ∃ x rest, nodes v = x :: rest := by
  refine List.exists_cons_of_ne_nil fun empty => nonNull ?_
  exact ((heap.lists.queue v of).head_zero_iff (heap.lists.nodePages v)).mpr empty

/-- **One call.** -/
theorem ProcHeap.step (heap : ProcHeap L k role free nodes) {call : ProcCall}
    (step : ProcStep L k call k') :
    ∃ role' free' nodes', ProcHeap L k' role' free' nodes' := by
  obtain ⟨allowed, done⟩ := step
  cases call with
  | allocproc =>
    obtain ⟨⟨p, s⟩, made, same⟩ := bind_ok done
    cases same
    obtain ⟨p', f, rest, rfl⟩ := heap.allocproc_pages made
    obtain ⟨s', role', made', heap'⟩ := heap.allocproc
    rw [made] at made'
    cases made'
    exact ⟨_, _, _, heap'⟩
  | createThread startFunction argc args =>
    obtain ⟨⟨t, phys⟩, made, same⟩ := bind_ok done
    cases same
    obtain ⟨role', free', heap'⟩ := heap.createThread made
    exact ⟨role', free', nodes, heap'⟩
  | changeThreadState t newState =>
    cases done
    exact ⟨role, free, nodes, heap.changeThreadState allowed newState⟩
  | push v item =>
    obtain ⟨⟨head, phys⟩, pushed, same⟩ := bind_ok done
    cases same
    rcases free with _ | ⟨f, free⟩
    · rw [v.push_eq, pushThreadList_exhausted heap.list] at pushed
      cases pushed
    · obtain ⟨head', phys', pushed', heap'⟩ := heap.push allowed.1 allowed.2
      rw [pushed] at pushed'
      cases pushed'
      exact ⟨_, _, _, heap'⟩
  | pop v =>
    obtain ⟨⟨item, head, phys⟩, popped, same⟩ := bind_ok done
    cases same
    obtain ⟨x, rest, order⟩ := heap.nonempty allowed (ListVar.pop_ne_zero popped)
    obtain ⟨phys', popped', heap'⟩ := heap.pop allowed order
    rw [popped] at popped'
    cases popped'
    exact ⟨_, _, _, heap'⟩
  | shift v =>
    obtain ⟨head, shifted, same⟩ := bind_ok done
    cases same
    obtain ⟨x, rest, order⟩ := heap.nonempty allowed (ListVar.shift_ne_zero shifted)
    obtain ⟨head', shifted', heap'⟩ := heap.shift allowed order
    rw [shifted] at shifted'
    cases shifted'
    exact ⟨_, _, _, heap'⟩
  | peek v =>
    obtain ⟨_, -, same⟩ := bind_ok done
    cases same
    exact ⟨role, free, nodes, heap⟩

/-- The kernel before the first process. -/
structure ProcFresh (L : Layout) (k : ProcKernel) (free : List Word) : Prop where
  list : FreeList L k.s.phys free
  procList : k.s.procList = 0
  currentPid : k.s.currentPid = 0
  procs : k.procs = []
  threads : k.threads = []

open Classical in
theorem ProcFresh.heap (fresh : ProcFresh L k free) :
    ProcHeap L k (fun p => if p ∈ free then .free else .other) free fun _ => [] := by
  obtain ⟨list, procList, -, procs, threads⟩ := fresh
  refine ⟨⟨?_, nofun, fun _ => List.nodup_nil, fun v of => ?_, nofun⟩, list,
    fun p member => if_pos member, ?_, ?_⟩
  · rw [procs]
    exact nofun
  · cases v with
    | procList => exact ⟨procList, IsRing.nil, nofun⟩
    | threads p =>
      rw [procs] at of
      cases of
  · rw [threads]
    exact nofun
  · rw [procs]
    exact nofun

/-- The process is on a node of the ring at `proc_list`. -/
def InProcList (s : Procs) (p : Word) : Prop :=
  s.procList ≠ 0 ∧ ∃ q x, Queue s.phys.mem s.procList q ∧ (x, p) ∈ q

/-- **Different processes in `proc_list` have different pids.** -/
def PidsDistinct (s : Procs) : Prop :=
  ∀ p q, InProcList s p → InProcList s q → p ≠ q → procPid s.phys.mem p ≠ procPid s.phys.mem q

theorem ProcHeap.inProcList_iff (heap : ProcHeap L k role free nodes) {p : Word} :
    InProcList k.s p ↔ ∃ x, (x, p) ∈ nodes .procList :=
  (heap.lists.queue .procList trivial).holds_iff (heap.lists.nodePages .procList)

/-- Every process in `proc_list` has the same pid. -/
theorem ProcHeap.pid_eq (heap : ProcHeap L k role free nodes) {p : Word}
    (listed : InProcList k.s p) : procPid k.s.phys.mem p = junkWord := by
  obtain ⟨x, member⟩ := heap.inProcList_iff.mp listed
  exact heap.pid p (heap.lists.members _ member)

/-- **Process IDs after any run** are distinct exactly when no two processes are in `proc_list`. -/
theorem pids_distinct_iff (fresh : ProcFresh L k free) {calls : List ProcCall}
    (run : Run (ProcStep L) k calls k') :
    PidsDistinct k'.s ↔ ∀ p q, InProcList k'.s p → InProcList k'.s q → p = q := by
  obtain ⟨role', free', nodes', heap⟩ := run.keeps
    (fun k => ∃ role free nodes, ProcHeap L k role free nodes)
    (fun _ _ _ ⟨_, _, _, heap⟩ step => heap.step step) ⟨_, _, _, fresh.heap⟩
  constructor
  · intro distinct p q listedP listedQ
    by_contra different
    exact distinct p q listedP listedQ different
      ((heap.pid_eq listedP).trans (heap.pid_eq listedQ).symm)
  · exact fun unique p q listedP listedQ different => absurd (unique p q listedP listedQ) different

/-- A kernel with four free pages. -/
def demoProcs : ProcKernel where
  s := ⟨⟨store64 (store64 (store64 (fun _ => 0) 0x200000 0x201000) 0x201000 0x202000) 0x202000 0x203000,
    0x200000⟩, 0, 0⟩
  procs := []
  threads := []

theorem demoProcs_fresh :
    ProcFresh demoLayout demoProcs [0x200000, 0x201000, 0x202000, 0x203000] where
  list := ⟨by decide +kernel, by decide, by
    simp only [List.forall_mem_cons]
    exact ⟨by decide, by decide, by decide, by decide, nofun⟩⟩
  procList := rfl
  currentPid := rfl
  procs := rfl
  threads := rfl

/-- A call of `allocproc` on two free pages. -/
theorem ProcHeap.allocproc_step {p f : Word} (heap : ProcHeap L k role (p :: f :: free) nodes) :
    ∃ k' role' nodes', ProcStep L k .allocproc k' ∧ ProcHeap L k' role' free nodes' ∧
      nodes' .procList = nodes .procList ++ [(f, p)] := by
  obtain ⟨s, role', made, heap'⟩ := heap.allocproc
  refine ⟨_, role', _, ⟨trivial, ?_⟩, heap', Function.update_self ..⟩
  rw [ProcCall.exec, made]
  rfl

/-- The first process alone. -/
theorem pids_distinct_first :
    ∃ k, Run (ProcStep demoLayout) demoProcs [.allocproc] k ∧ PidsDistinct k.s := by
  obtain ⟨k, role, nodes, step, heap, order⟩ := demoProcs_fresh.heap.allocproc_step
  have run := Run.cons step (.nil k)
  refine ⟨k, run, (pids_distinct_iff demoProcs_fresh run).mpr fun p q listedP listedQ => ?_⟩
  obtain ⟨x, memberP⟩ := heap.inProcList_iff.mp listedP
  obtain ⟨y, memberQ⟩ := heap.inProcList_iff.mp listedQ
  rw [order, List.nil_append, List.mem_singleton] at memberP memberQ
  exact (congrArg Prod.snd memberP).trans (congrArg Prod.snd memberQ).symm

/-- **The second process has the pid of the first.** -/
theorem allocproc_same_pid :
    ∃ k, Run (ProcStep demoLayout) demoProcs [.allocproc, .allocproc] k ∧
      InProcList k.s 0x200000 ∧ InProcList k.s 0x202000 ∧
      procPid k.s.phys.mem 0x200000 = procPid k.s.phys.mem 0x202000 ∧ ¬ PidsDistinct k.s := by
  obtain ⟨k₁, role₁, nodes₁, step₁, heap₁, order₁⟩ := demoProcs_fresh.heap.allocproc_step
  obtain ⟨k₂, role₂, nodes₂, step₂, heap₂, order₂⟩ := heap₁.allocproc_step
  rw [order₁] at order₂
  have first : InProcList k₂.s 0x200000 :=
    heap₂.inProcList_iff.mpr ⟨0x201000, by rw [order₂]; exact List.mem_cons_self⟩
  have second : InProcList k₂.s 0x202000 :=
    heap₂.inProcList_iff.mpr ⟨0x203000, by
      rw [order₂]; exact List.mem_cons_of_mem _ List.mem_cons_self⟩
  have same := (heap₂.pid_eq first).trans (heap₂.pid_eq second).symm
  exact ⟨k₂, .cons step₁ (.cons step₂ (.nil k₂)), first, second, same,
    fun distinct => distinct _ _ first second (by decide) same⟩

end ShipOS
