/-
**Lists of processes and lists of threads (`proc.c`, `threads.c`).**

The kernel has one list of processes, `proc_list`, and every process has a list of threads. Both are
rings of nodes of the same layout, and the functions on them differ in their panics only. A `ListVar`
is one of these lists, as the variable that holds its head.

Every page has one `Role`, so a page written as one thing is not read as another.

* `Lists L role procs mem procList nodes` — every list is the ring of its `nodes`;
* `Lists.set` — one list replaced, the others as they were, and `Lists.shift` for `shift_proc_list`
  and `shift_thread_list`;
* `Lists.others` — pages that are neither processes nor nodes.
-/

import ShipOS.Sched.Queues

namespace ShipOS

open ByteMem Ring

/-! ### The code -/

/-- `push_proc_list` has the body of `push_thread_list`. -/
def pushProcList (list proc : Word) (s : Phys) : Except Halt (Word × Phys) :=
  pushThreadList list proc s

/-- `pop_proc_list` has the body of `pop_thread_list`, with its own panic. -/
def popProcList (L : Layout) (list : Word) (s : Phys) : Except Halt (Word × Word × Phys) :=
  if list = 0 then .error (.panic "Empty proc list while popping\n") else popThreadList L list s

def shiftNode (message : String) (list : Word) (mem : Mem) : Except Halt Word :=
  if list = 0 then .error (.panic message) else .ok (nodeNext mem list)

def shiftProcList : Word → Mem → Except Halt Word := shiftNode "Empty proc list while shifting\n"

def shiftThreadList : Word → Mem → Except Halt Word :=
  shiftNode "Empty thread list while shifting\n"

def peekNode (message : String) (list : Word) (mem : Mem) : Except Halt Word :=
  if list = 0 then .error (.panic message) else .ok (nodeData mem list)

def peekProcList : Word → Mem → Except Halt Word := peekNode "Empty proc list while peeking\n"

def peekThreadList : Word → Mem → Except Halt Word := peekNode "Empty thread list while peeking\n"

/-- `proc->pid`. -/
def procPid (mem : Mem) (proc : Word) : Word := load64 mem (slot proc 0)

/-- `proc->threads`, after `pid` and the padded `killed`. -/
def procThreads (mem : Mem) (proc : Word) : Word := load64 mem (slot proc 2)

/-- A variable that holds a list: `proc_list`, or `threads` of a process. -/
inductive ListVar
  | procList
  | threads (proc : Word)
  deriving DecidableEq

namespace ListVar

def get : ListVar → Mem → Word → Word
  | .procList, _, list => list
  | .threads proc, mem, _ => procThreads mem proc

/-- `*list = head`, where it is a store into memory. -/
def store (head : Word) : ListVar → Mem → Mem
  | .procList, mem => mem
  | .threads proc, mem => store64 mem (slot proc 2) head

/-- `*list = head`, where it is an assignment to `proc_list`. -/
def assign (head : Word) : ListVar → Word → Word
  | .procList, _ => head
  | .threads _, list => list

def push : ListVar → Word → Word → Phys → Except Halt (Word × Phys)
  | .procList => pushProcList
  | .threads _ => pushThreadList

def pop (L : Layout) : ListVar → Word → Phys → Except Halt (Word × Word × Phys)
  | .procList => popProcList L
  | .threads _ => popThreadList L

def shift : ListVar → Word → Mem → Except Halt Word
  | .procList => shiftProcList
  | .threads _ => shiftThreadList

def peek : ListVar → Word → Mem → Except Halt Word
  | .procList => peekProcList
  | .threads _ => peekThreadList

/-- The page the variable is in. -/
def pages : ListVar → List Word
  | .procList => []
  | .threads proc => [proc]

/-- A list of the kernel with the processes `procs`. -/
def Of (procs : List Word) : ListVar → Prop
  | .procList => True
  | .threads proc => proc ∈ procs

variable {v w : ListVar} {mem mem' : Mem} {head list : Word}

theorem store_only : OnlyPages v.pages mem (v.store head mem) := by
  cases v with
  | procList => exact OnlyPages.refl _ _
  | threads proc => exact (onlyPage_store _ _ _ (by omega)).pages (List.mem_singleton_self proc)

theorem get_store : v.get (v.store head mem) (v.assign head list) = head := by
  cases v with
  | procList => rfl
  | threads proc => exact load64_store64_self _ _ _

/-- Another list keeps its head. -/
theorem get_other (other : w ≠ v) (head : Word) :
    w.get mem (v.assign head list) = w.get mem list := by
  cases w with
  | procList =>
    cases v with
    | procList => exact absurd rfl other
    | threads proc => rfl
  | threads proc => rfl

theorem get_only {ps : List Word} (aligned : ∀ p ∈ ps, PageAligned p)
    (own : ∀ p ∈ w.pages, PageAligned p ∧ p ∉ ps) (only : OnlyPages ps mem mem') :
    w.get mem' list = w.get mem list := by
  cases w with
  | procList => rfl
  | threads proc =>
    obtain ⟨page, apart⟩ := own proc (List.mem_singleton_self proc)
    exact only.load64 aligned page apart (by omega)

theorem pages_disjoint (other : w ≠ v) {p : Word} (here : p ∈ w.pages) : p ∉ v.pages := by
  cases w with
  | procList => cases here
  | threads proc =>
    cases v with
    | procList => exact List.not_mem_nil
    | threads proc' =>
      intro there
      exact other (by rw [← List.mem_singleton.mp here, List.mem_singleton.mp there])

end ListVar

/-! ### Roles -/

/-- What a page is used for. -/
inductive Role
  | free
  | process
  | thread
  | node (v : ListVar)
  | other
  deriving DecidableEq

/-- A page that no list is read from. -/
def Role.Unlisted : Role → Prop
  | .process => False
  | .node _ => False
  | _ => True

theorem Role.process_listed {r : Role} (process : r = .process) : ¬ r.Unlisted := by
  rw [process]
  exact not_false

theorem Role.node_listed {r : Role} {v : ListVar} (node : r = .node v) : ¬ r.Unlisted := by
  rw [node]
  exact not_false

variable {L : Layout} {role role' : Word → Role} {procs : List Word} {mem mem' : Mem}
  {procList : Word} {nodes : ListVar → List (Word × Word)} {v w : ListVar}

/-- **All lists**: each is the ring of its nodes, in pages of its own. -/
structure Lists (L : Layout) (role : Word → Role) (procs : List Word) (mem : Mem) (procList : Word)
    (nodes : ListVar → List (Word × Word)) : Prop where
  process : ∀ p ∈ procs, role p = .process ∧ IsPage L p
  node : ∀ v, ∀ x ∈ nodes v, role x.1 = .node v ∧ IsPage L x.1
  nodup : ∀ v, ((nodes v).map Prod.fst).Nodup
  queue : ∀ v, v.Of procs → Queue mem (v.get mem procList) (nodes v)
  members : ∀ x ∈ nodes .procList, x.2 ∈ procs

namespace Lists

theorem nodePages (lists : Lists L role procs mem procList nodes) (v : ListVar) :
    NodePages L (nodes v) :=
  ⟨fun x member => (lists.node v x member).2, lists.nodup v⟩

theorem variable_process (lists : Lists L role procs mem procList nodes) (of : v.Of procs) :
    ∀ p ∈ v.pages, role p = .process ∧ IsPage L p := by
  cases v with
  | procList => exact fun _ member => absurd member List.not_mem_nil
  | threads proc => exact List.forall_mem_singleton.mpr (lists.process proc of)

/-- A list with the pages of its nodes and of its variable kept. -/
theorem queue_others (lists : Lists L role procs mem procList nodes) (of : w.Of procs)
    {ps : List Word} (aligned : ∀ p ∈ ps, PageAligned p) (apart : ∀ p ∈ ps, role p ≠ .node w)
    (own : ∀ p ∈ w.pages, p ∉ ps) (only : OnlyPages ps mem mem') :
    Queue mem' (w.get mem' procList) (nodes w) := by
  have head : w.get mem' procList = w.get mem procList :=
    ListVar.get_only aligned
      (fun p member => ⟨(lists.variable_process of p member).2.aligned, own p member⟩) only
  rw [head]
  refine (lists.queue w of).others (lists.nodePages w) aligned (fun p node member => ?_) only
  obtain ⟨x, inside, rfl⟩ := List.mem_map.mp node
  exact apart x.1 member (lists.node w x inside).1

/-- **Pages without a list change.** -/
theorem others (lists : Lists L role procs mem procList nodes) {ps : List Word}
    (aligned : ∀ p ∈ ps, PageAligned p) (unlisted : ∀ p ∈ ps, (role p).Unlisted)
    (only : OnlyPages ps mem mem') (kept : ∀ p, ¬ (role p).Unlisted → role' p = role p) :
    Lists L role' procs mem' procList nodes := by
  refine ⟨fun p member => ?_, fun v x member => ?_, lists.nodup, fun v of => ?_, lists.members⟩
  · obtain ⟨process, page⟩ := lists.process p member
    exact ⟨(kept p (Role.process_listed process)).trans process, page⟩
  · obtain ⟨node, page⟩ := lists.node v x member
    exact ⟨(kept x.1 (Role.node_listed node)).trans node, page⟩
  · refine lists.queue_others of aligned (fun p member node => ?_) (fun p member inside => ?_) only
    · exact Role.node_listed node (unlisted p member)
    · exact Role.process_listed (lists.variable_process of p member).1 (unlisted p inside)

/-- **One list replaced**: its nodes and free pages are written, then its variable. -/
theorem set (lists : Lists L role procs mem procList nodes) (of : v.Of procs) {ps : List Word}
    {head : Word} {q : List (Word × Word)} (aligned : ∀ p ∈ ps, PageAligned p)
    (touched : ∀ p ∈ ps, role p = .free ∨ role p = .node v) (only : OnlyPages ps mem mem')
    (kept : ∀ p, role p ≠ .free → role p ≠ .node v → role' p = role p) (queue : Queue mem' head q)
    (node : ∀ x ∈ q, role' x.1 = .node v ∧ IsPage L x.1) (nodup : (q.map Prod.fst).Nodup)
    (members : v = .procList → ∀ x ∈ q, x.2 ∈ procs) :
    Lists L role' procs (v.store head mem') (v.assign head procList)
      (Function.update nodes v q) := by
  have own := lists.variable_process of
  have keptProcess : ∀ p, role p = .process → role' p = .process ∧ p ∉ ps := by
    intro p process
    refine ⟨(kept p (by rw [process]; nofun) (by rw [process]; nofun)).trans process, ?_⟩
    intro member
    rcases touched p member with free | node
    · cases process.symm.trans free
    · cases process.symm.trans node
  have keptNode : ∀ p w, w ≠ v → role p = .node w → role' p = .node w ∧ p ∉ ps := by
    intro p w other node
    have notV : role p ≠ .node v := fun same => other (Role.node.inj (node.symm.trans same))
    refine ⟨(kept p (by rw [node]; nofun) notV).trans node, fun member => ?_⟩
    rcases touched p member with free | nodeV
    · cases node.symm.trans free
    · exact notV nodeV
  refine ⟨fun p member => ?_, ?_, ?_, ?_, ?_⟩
  · obtain ⟨process, page⟩ := lists.process p member
    exact ⟨(keptProcess p process).1, page⟩
  · refine (Function.forall_update_iff nodes fun w q => ∀ x ∈ q, role' x.1 = .node w ∧
      IsPage L x.1).mpr ⟨node, fun w other x member => ?_⟩
    obtain ⟨old, page⟩ := lists.node w x member
    exact ⟨(keptNode x.1 w other old).1, page⟩
  · exact (Function.forall_update_iff nodes fun _ q => (q.map Prod.fst).Nodup).mpr
      ⟨nodup, fun w _ => lists.nodup w⟩
  · refine (Function.forall_update_iff nodes fun w q => w.Of procs →
      Queue _ (w.get _ _) q).mpr ⟨fun _ => ?_, fun w other ofW => ?_⟩
    · rw [ListVar.get_store]
      refine queue.others ⟨fun x member => (node x member).2, nodup⟩
        (fun p member => (own p member).2.aligned) (fun p member inside => ?_) ListVar.store_only
      obtain ⟨x, memberX, rfl⟩ := List.mem_map.mp member
      cases (node x memberX).1.symm.trans (keptProcess x.1 (own x.1 inside).1).1
    · -- another list: neither the pages `ps` nor the variable of `v` are among its pages
      have total : OnlyPages (ps ++ v.pages) mem (v.store head mem') :=
        (only.mono (List.subset_append_left _ _)).trans
          (ListVar.store_only.mono (List.subset_append_right _ _))
      rw [ListVar.get_other other]
      refine lists.queue_others ofW (List.forall_mem_append.mpr ⟨aligned, fun p member =>
        (own p member).2.aligned⟩) (List.forall_mem_append.mpr ⟨fun p member node => ?_,
        fun p member node => ?_⟩) (fun p member inside => ?_) total
      · exact (keptNode p w other node).2 member
      · cases node.symm.trans (own p member).1
      · rcases List.mem_append.mp inside with inside | inside
        · exact (keptProcess p (lists.variable_process ofW p member).1).2 inside
        · exact ListVar.pages_disjoint other member inside
  · by_cases here : ListVar.procList = v
    · rw [← here, Function.update_self]
      exact members here.symm
    · rw [Function.update_of_ne here]
      exact lists.members

/-- A list with a node is not `NULL`. -/
theorem get_ne_zero (lists : Lists L role procs mem procList nodes) (of : v.Of procs)
    {x : Word × Word} {rest : List (Word × Word)} (order : nodes v = x :: rest) :
    v.get mem procList ≠ 0 := by
  intro null
  have empty := ((lists.queue v of).head_zero_iff (lists.nodePages v)).mp null
  cases order.symm.trans empty

/-- A loop around a list ends within the fuel. -/
theorem length_lt_ptrFuel (lists : Lists L role procs mem procList nodes) {x : Word × Word}
    {rest : List (Word × Word)} (order : nodes v = x :: rest) : rest.length < ptrFuel := by
  have bound := (lists.nodePages v).length_le
  rw [order, List.length_cons] at bound
  rw [ptrFuel]
  omega

/-- The first item of a list. -/
theorem peek (lists : Lists L role procs mem procList nodes) (of : v.Of procs) {x : Word × Word}
    {rest : List (Word × Word)} (order : nodes v = x :: rest) :
    v.peek (v.get mem procList) mem = .ok x.2 := by
  have queue := lists.queue v of
  rw [order] at queue
  have head : v.get mem procList = x.1 := queue.head_eq
  have page := (lists.node v x (order ▸ List.mem_cons_self)).2
  have item : Except.ok (nodeData mem x.1) = (Except.ok x.2 : Except Halt Word) :=
    congrArg Except.ok (queue.data x List.mem_cons_self)
  rw [head]
  cases v <;> exact (if_neg page.ne_zero).trans item

/-- **A list turned by one node.** -/
theorem shift (lists : Lists L role procs mem procList nodes) (of : v.Of procs) {x : Word × Word}
    {rest : List (Word × Word)} (order : nodes v = x :: rest) :
    v.shift (v.get mem procList) mem = .ok (nodeNext mem x.1) ∧
      Lists L role procs (v.store (nodeNext mem x.1) mem) (v.assign (nodeNext mem x.1) procList)
        (Function.update nodes v (rest ++ [x])) := by
  have queue := lists.queue v of
  rw [order] at queue
  have head : v.get mem procList = x.1 := queue.head_eq
  have page := (lists.node v x (order ▸ List.mem_cons_self)).2
  have inside : ∀ y ∈ rest ++ [x], y ∈ nodes v := by
    intro y member
    rw [order]
    exact List.perm_append_singleton x rest |>.mem_iff.mp member
  have turned : Queue mem (nodeNext mem x.1) (rest ++ ([] ++ [x])) := Queue.turn queue
  have nothing : ∀ p ∈ ([] : List Word), PageAligned p := nofun
  refine ⟨?_, lists.set of nothing nofun (OnlyPages.refl _ _) (fun _ _ _ => rfl) turned
    (fun y member => lists.node v y (inside y member)) ?_ ?_⟩
  · rw [head]
    cases v <;> exact if_neg page.ne_zero
  · have nodup := lists.nodup v
    rw [order] at nodup
    exact ((List.perm_append_singleton x rest).map Prod.fst).nodup_iff.mpr nodup
  · rintro rfl y member
    exact lists.members y (inside y member)

end Lists

end ShipOS
