/-
**The scheduler of one CPU (`scheduler.c`).**

`get_next_thread` looks through the processes from the head of `proc_list` on, and through the threads
of each from the head of its list on, and returns the first `RUNNABLE` thread. It turns the thread
list behind the thread it returns. The list of processes is turned past a process with no `RUNNABLE`
thread, and once `current_proc_rounds` reaches `ROUNDS_PER_PROC`; the counter is only ever set to 0.

* `Legacy` — the rings of processes and threads; `threadLoop_spec`, `procLoop_spec` are the two loops;
* `getNextThread_spec` — the thread comes from the process at the head of the list after the call,
  which is the one before it as long as that one has a `RUNNABLE` thread;
* `findsWork_iff` — in any round it finds a `RUNNABLE` thread if there is one, unless it passes over
  the only process that has one;
* `timeSlices_iff` — so a process keeps the CPU for more than `ROUNDS_PER_PROC` calls, with others
  waiting, exactly if it is still `RUNNABLE` at each of them.
-/

import ShipOS.Lib.Runs
import ShipOS.Lib.Scheduling
import ShipOS.Sched.ProcLists

namespace ShipOS

open ByteMem Slices Runs

/-! ### The code -/

/-- Memory, `proc_list` and `current_proc_rounds`. -/
structure LegacySched where
  mem : Mem
  procList : Word
  currentProcRounds : BitVec 32

def roundsPerProc : Nat := 5

/-- The loop over the threads of `current_proc`; no thread after a whole round. -/
def threadLoop (currentProc firstThread : Word) : Nat → Mem → Except Halt (Option Word × Mem)
  | 0, _ => .error .diverges
  | fuel + 1, mem => do
    let currentThread ← peekThreadList (procThreads mem currentProc) mem
    let next ← shiftThreadList (procThreads mem currentProc) mem
    let mem := store64 mem (slot currentProc 2) next
    if threadState mem currentThread = SchedState.runnable.raw then .ok (some currentThread, mem)
    else do
      let head ← peekThreadList (procThreads mem currentProc) mem
      if head ≠ firstThread then threadLoop currentProc firstThread fuel mem else .ok (none, mem)

/-- The loop over the processes. -/
def procLoop (firstProc : Word) : Nat → LegacySched → Except Halt (Word × LegacySched)
  | 0, _ => .error .diverges
  | fuel + 1, s => do
    let currentProc ← peekProcList s.procList s.mem
    if procThreads s.mem currentProc = 0 then .error (.panic "schedule: proc with no threads\n")
    else do
      let firstThread ← peekThreadList (procThreads s.mem currentProc) s.mem
      match ← threadLoop currentProc firstThread ptrFuel s.mem with
      | (some thread, mem) => .ok (thread, { s with mem := mem })
      | (none, mem) => do
        let procList ← shiftProcList s.procList mem
        let head ← peekProcList procList mem
        if head ≠ firstProc then procLoop firstProc fuel ⟨mem, procList, 0⟩
        else .error (.panic "shcedule: no available threads\n")

/-- The end of the time slice of a process. -/
def endSlice (s : LegacySched) : Except Halt LegacySched :=
  if s.currentProcRounds ≥ BitVec.ofNat 32 roundsPerProc then do
    let procList ← shiftProcList s.procList s.mem
    .ok { s with procList := procList, currentProcRounds := 0 }
  else .ok s

def getNextThread (s : LegacySched) : Except Halt (Word × LegacySched) :=
  if s.procList = 0 then .error (.panic "schedule: no procs")
  else do
    let firstProc ← peekProcList s.procList s.mem
    let s ← endSlice s
    procLoop firstProc ptrFuel s

/-! ### The rings -/

variable {L : Layout} {role : Word → Role} {procs : List Word} {s s' : LegacySched}
  {nodes nodes' : ListVar → List (Word × Word)} {mem mem' : Mem} {procList p : Word}

/-- **A ring of processes**, each with a ring of distinct threads. -/
structure Legacy (L : Layout) (role : Word → Role) (procs : List Word) (s : LegacySched)
    (nodes : ListVar → List (Word × Word)) : Prop where
  lists : Lists L role procs s.mem s.procList nodes
  processes : nodes .procList ≠ []
  threads : ∀ p ∈ procs, nodes (.threads p) ≠ []
  distinct : ∀ p ∈ procs, ((nodes (.threads p)).map Prod.snd).Nodup
  page : ∀ p ∈ procs, ∀ x ∈ nodes (.threads p), role x.2 = .thread ∧ IsPage L x.2
  rounds : s.currentProcRounds < BitVec.ofNat 32 roundsPerProc

/-- A process with a `RUNNABLE` thread. -/
def HasRunnable (nodes : ListVar → List (Word × Word)) (mem : Mem) (p : Word) : Prop :=
  ∃ x ∈ nodes (.threads p), Runnable mem x.2

/-- The lists are turned, and the states of the threads are kept. -/
structure Turned (L : Layout) (role : Word → Role) (mem mem' : Mem)
    (nodes nodes' : ListVar → List (Word × Word)) : Prop where
  perm : ∀ v, (nodes' v).Perm (nodes v)
  states : ∀ t, role t = .thread → IsPage L t → threadState mem' t = threadState mem t

theorem Turned.trans {mem'' : Mem} {nodes'' : ListVar → List (Word × Word)}
    (first : Turned L role mem mem' nodes nodes') (second : Turned L role mem' mem'' nodes' nodes'') :
    Turned L role mem mem'' nodes nodes'' :=
  ⟨fun v => (second.perm v).trans (first.perm v), fun t thread page =>
    (second.states t thread page).trans (first.states t thread page)⟩

theorem perm_update {v : ListVar} {q : List (Word × Word)} (perm : q.Perm (nodes v)) (w : ListVar) :
    (Function.update nodes v q w).Perm (nodes w) := by
  by_cases here : w = v
  · rw [here, Function.update_self]
    exact perm
  · rw [Function.update_of_ne here]

/-- A change of a process page keeps the states of the threads. -/
theorem threadState_process {t : Word} (only : OnlyPage p mem mem') (process : role p = .process)
    (pageP : IsPage L p) (thread : role t = .thread) (pageT : IsPage L t) :
    threadState mem' t = threadState mem t := by
  have other : t ∉ [p] := by
    rw [List.mem_singleton]
    rintro rfl
    cases thread.symm.trans process
  exact (only.pages (List.mem_singleton_self p)).load32
    (List.forall_mem_singleton.mpr pageP.aligned) pageT.aligned other (by omega)

theorem Legacy.turn (legacy : Legacy L role procs s nodes)
    (lists : Lists L role procs s'.mem s'.procList nodes') (perm : ∀ v, (nodes' v).Perm (nodes v))
    (rounds : s'.currentProcRounds < BitVec.ofNat 32 roundsPerProc) :
    Legacy L role procs s' nodes' := by
  refine ⟨lists, fun empty => legacy.processes ?_, fun p member empty => legacy.threads p member ?_,
    fun p member => ?_, fun p member x inside => ?_, rounds⟩
  · exact (List.Perm.nil_eq (empty ▸ perm .procList)).symm
  · exact (List.Perm.nil_eq (empty ▸ perm (.threads p))).symm
  · exact ((perm (.threads p)).map Prod.snd).nodup_iff.mpr (legacy.distinct p member)
  · exact legacy.page p member x ((perm (.threads p)).mem_iff.mp inside)

theorem Turned.hasRunnable (turned : Turned L role s.mem mem' nodes nodes')
    (legacy : Legacy L role procs s nodes) (member : p ∈ procs) :
    HasRunnable nodes' mem' p ↔ HasRunnable nodes s.mem p := by
  constructor
  · rintro ⟨x, inside, runnable⟩
    have old := (turned.perm (.threads p)).mem_iff.mp inside
    obtain ⟨thread, page⟩ := legacy.page p member x old
    refine ⟨x, old, ?_⟩
    rwa [Runnable, ← turned.states x.2 thread page]
  · rintro ⟨x, inside, runnable⟩
    obtain ⟨thread, page⟩ := legacy.page p member x inside
    refine ⟨x, (turned.perm (.threads p)).mem_iff.mpr inside, ?_⟩
    rwa [Runnable, turned.states x.2 thread page]

/-! ### The two loops -/

/-- **One round of the loop over threads.** -/
theorem threadLoop_round {x : Word × Word} {q : List (Word × Word)}
    (lists : Lists L role procs mem procList nodes) (member : p ∈ procs)
    (order : nodes (.threads p) = x :: q) (thread : role x.2 = .thread) (page : IsPage L x.2)
    (firstThread : Word) (fuel : Nat) :
    ∃ mem', OnlyPage p mem mem' ∧
      Lists L role procs mem' procList (Function.update nodes (.threads p) (q ++ [x])) ∧
      (Runnable mem x.2 → threadLoop p firstThread (fuel + 1) mem = .ok (some x.2, mem')) ∧
      (¬ Runnable mem x.2 → ∀ y tail, q ++ [x] = y :: tail →
        threadLoop p firstThread (fuel + 1) mem =
          if y.2 ≠ firstThread then threadLoop p firstThread fuel mem' else .ok (none, mem')) := by
  obtain ⟨process, pageP⟩ := lists.process p member
  have peeked : peekThreadList (procThreads mem p) mem = .ok x.2 :=
    lists.peek (v := .threads p) member order
  obtain ⟨shifted, lists'⟩ := lists.shift (v := .threads p) member order
  change shiftThreadList (procThreads mem p) mem = _ at shifted
  have only : OnlyPage p mem (store64 mem (slot p 2) (nodeNext mem x.1)) :=
    onlyPage_store _ _ _ (by omega)
  refine ⟨_, only, lists', fun runnable => ?_, fun waits y tail turned => ?_⟩
  · rw [Runnable, ← threadState_process only process pageP thread page] at runnable
    rw [threadLoop, peeked, ok_bind, shifted, ok_bind]
    exact if_pos runnable
  · rw [Runnable, ← threadState_process only process pageP thread page] at waits
    have again := lists'.peek (v := .threads p) member ((Function.update_self ..).trans turned)
    change peekThreadList (procThreads _ p) _ = _ at again
    rw [threadLoop, peeked, ok_bind, shifted, ok_bind]
    refine (if_neg waits).trans ?_
    exact (congrArg (· >>= _) again).trans rfl

/-- Only the head of a list with distinct items is its first item. -/
theorem head_unique {l : List (Word × Word)} {first : Word} {x y : Word × Word}
    {pre post : List (Word × Word)} (order : l = pre ++ x :: y :: post)
    (nodup : (l.map Prod.snd).Nodup) (head : l.head?.map Prod.snd = some first) : y.2 ≠ first := by
  subst order
  rintro rfl
  cases pre with
  | nil =>
    rw [List.nil_append, List.map_cons, List.map_cons, List.nodup_cons] at nodup
    exact nodup.1 (Option.some.inj head ▸ List.mem_cons_self)
  | cons z pre =>
    rw [List.cons_append, List.map_cons, List.nodup_cons, List.map_append] at nodup
    refine nodup.1 (List.mem_append_right _ ?_)
    rw [show z.2 = y.2 from Option.some.inj head]
    exact List.mem_cons_of_mem _ List.mem_cons_self

/-- **The loop over threads**, with `done` behind it and `x :: rest` ahead: it finds the first that is
`RUNNABLE`, and ends after one round if there is none. -/
theorem threadLoop_spec (member : p ∈ procs) {firstThread : Word} (start : Mem) (fuel : Nat) :
    ∀ (rest : List (Word × Word)) (x : Word × Word) (done : List (Word × Word)) (mem : Mem)
      (nodes : ListVar → List (Word × Word)), rest.length < fuel →
    nodes (.threads p) = x :: (rest ++ done) → Lists L role procs mem procList nodes →
    OnlyPage p start mem → (∀ z ∈ done ++ x :: rest, role z.2 = .thread ∧ IsPage L z.2) →
    ((done ++ x :: rest).map Prod.snd).Nodup →
    (done ++ x :: rest).head?.map Prod.snd = some firstThread →
    (∀ z ∈ done, ¬ Runnable start z.2) →
    (∃ pre y post mem', done ++ x :: rest = pre ++ y :: post ∧ (∀ z ∈ pre, ¬ Runnable start z.2) ∧
      Runnable start y.2 ∧ threadLoop p firstThread fuel mem = .ok (some y.2, mem') ∧
      OnlyPage p start mem' ∧
      Lists L role procs mem' procList (Function.update nodes (.threads p) (post ++ (pre ++ [y])))) ∨
    (∀ z ∈ done ++ x :: rest, ¬ Runnable start z.2) ∧ ∃ mem',
      threadLoop p firstThread fuel mem = .ok (none, mem') ∧ OnlyPage p start mem' ∧
      Lists L role procs mem' procList
        (Function.update nodes (.threads p) (done ++ x :: rest)) := by
  induction fuel with
  | zero => exact fun rest _ _ _ _ enough => absurd enough (Nat.not_lt_zero _)
  | succ fuel ih =>
    intro rest x done mem nodes enough order lists only pages nodup head skipped
    obtain ⟨process, pageP⟩ := lists.process p member
    obtain ⟨thread, page⟩ := pages x (List.mem_append_right _ List.mem_cons_self)
    obtain ⟨mem', only', lists', found, next⟩ :=
      threadLoop_round lists member order thread page firstThread fuel
    have same : Runnable mem x.2 ↔ Runnable start x.2 := by
      rw [Runnable, threadState_process only process pageP thread page, Runnable]
    rw [List.append_assoc] at lists' next
    by_cases runnable : Runnable mem x.2
    · exact .inl ⟨done, x, rest, mem', rfl, skipped, same.mp runnable, found runnable,
        only.trans only', lists'⟩
    have skipped' : ∀ z ∈ done ++ [x], ¬ Runnable start z.2 := by
      intro z inside
      rcases List.mem_append.mp inside with old | new
      · exact skipped z old
      · rw [List.mem_singleton.mp new]
        exact mt same.mpr runnable
    cases rest with
    | nil =>
      -- The round is over: the head is the first thread again.
      obtain ⟨y, tail, again⟩ := List.exists_cons_of_ne_nil
        (List.append_ne_nil_of_right_ne_nil done (List.cons_ne_nil x []))
      refine .inr ⟨skipped', mem', ?_, only.trans only', lists'⟩
      rw [again] at head
      rw [next runnable y tail again]
      exact if_neg (not_not.mpr (Option.some.inj head))
    | cons y rest =>
      have regroup : done ++ x :: y :: rest = done ++ [x] ++ y :: rest := List.append_cons ..
      have step : threadLoop p firstThread (fuel + 1) mem = threadLoop p firstThread fuel mem' :=
        (next runnable y _ rfl).trans (if_pos (head_unique rfl nodup head))
      rw [regroup] at pages nodup head ⊢
      have result := ih rest y (done ++ [x]) mem' _ (Nat.lt_of_succ_lt_succ enough)
        (Function.update_self ..) lists' (only.trans only') pages nodup head skipped'
      simp only [Function.update_idem] at result
      rw [step]
      exact result

/-- The panic when no process has a `RUNNABLE` thread. -/
def noThreads : Halt := .panic "shcedule: no available threads\n"

/-- **The search of one process**: a `RUNNABLE` thread is found and the threads are turned past it, or
there is none and they are where they were. -/
theorem Legacy.search (legacy : Legacy L role procs s nodes) (member : p ∈ procs) :
    ∃ firstThread, peekThreadList (procThreads s.mem p) s.mem = .ok firstThread ∧
      procThreads s.mem p ≠ 0 ∧
      ((∃ t mem' r, threadLoop p firstThread ptrFuel s.mem = .ok (some t, mem') ∧
        OnlyPage p s.mem mem' ∧
        Lists L role procs mem' s.procList (Function.update nodes (.threads p) r) ∧
        r.Perm (nodes (.threads p)) ∧ t ∈ (nodes (.threads p)).map Prod.snd ∧ Runnable s.mem t) ∨
      ¬ HasRunnable nodes s.mem p ∧ ∃ mem',
        threadLoop p firstThread ptrFuel s.mem = .ok (none, mem') ∧ OnlyPage p s.mem mem' ∧
        Lists L role procs mem' s.procList nodes) := by
  obtain ⟨z, zs, threads⟩ := List.exists_cons_of_ne_nil (legacy.threads p member)
  have pages := legacy.page p member
  have nodup := legacy.distinct p member
  rw [threads] at pages nodup
  have search := threadLoop_spec member s.mem ptrFuel zs z [] s.mem nodes
    (legacy.lists.length_lt_ptrFuel threads) (by rw [threads, List.append_nil]) legacy.lists
    (fun _ _ => rfl) pages nodup rfl (List.forall_mem_nil _)
  refine ⟨z.2, legacy.lists.peek (v := .threads p) member threads,
    legacy.lists.get_ne_zero (v := .threads p) member threads, ?_⟩
  rcases search with ⟨pre, y, post, mem', split, -, runnable, loop, only, lists⟩ |
    ⟨idle, mem', loop, only, lists⟩
  · rw [List.nil_append] at split
    refine .inl ⟨y.2, mem', _, loop, only, lists, ?_, ?_, runnable⟩
    · rw [threads, split, List.append_cons pre y post]
      exact List.perm_append_comm
    · rw [threads, split]
      exact List.mem_map_of_mem (List.mem_append_right _ List.mem_cons_self)
  · rw [List.nil_append, ← threads, Function.update_eq_self] at lists
    refine .inr ⟨?_, mem', loop, only, lists⟩
    rintro ⟨w, inside, runnable⟩
    rw [threads] at inside
    exact idle w inside runnable

/-- **One round of the loop over processes**: a thread of the head is returned, or the head has none
and the list is turned past it. -/
theorem procLoop_round {x : Word × Word} {q : List (Word × Word)}
    (legacy : Legacy L role procs s nodes) (order : nodes .procList = x :: q) (firstProc : Word)
    (fuel : Nat) :
    (∃ t mem' r, procLoop firstProc (fuel + 1) s = .ok (t, { s with mem := mem' }) ∧
      Legacy L role procs { s with mem := mem' } (Function.update nodes (.threads x.2) r) ∧
      Turned L role s.mem mem' nodes (Function.update nodes (.threads x.2) r) ∧
      t ∈ (nodes (.threads x.2)).map Prod.snd ∧ Runnable s.mem t) ∨
    ¬ HasRunnable nodes s.mem x.2 ∧ ∃ mem' procList',
      Legacy L role procs ⟨mem', procList', 0⟩ (Function.update nodes .procList (q ++ [x])) ∧
      Turned L role s.mem mem' nodes (Function.update nodes .procList (q ++ [x])) ∧
      ∀ y tail, q ++ [x] = y :: tail → procLoop firstProc (fuel + 1) s =
        if y.2 ≠ firstProc then procLoop firstProc fuel ⟨mem', procList', 0⟩
        else .error noThreads := by
  have member : x.2 ∈ procs := legacy.lists.members x (order ▸ List.mem_cons_self)
  obtain ⟨process, pageP⟩ := legacy.lists.process x.2 member
  have peeked : peekProcList s.procList s.mem = .ok x.2 :=
    legacy.lists.peek (v := .procList) trivial order
  have states : ∀ {m}, OnlyPage x.2 s.mem m → ∀ t, role t = .thread → IsPage L t →
      threadState m t = threadState s.mem t := fun only t thread page =>
    threadState_process only process pageP thread page
  obtain ⟨firstThread, peekedThread, nonNull, search⟩ := legacy.search member
  rcases search with ⟨t, mem', r, loop, only, lists, perm, listed, runnable⟩ |
    ⟨idle, mem', loop, only, lists⟩
  · refine .inl ⟨t, mem', r, ?_, legacy.turn lists (perm_update perm) legacy.rounds,
      ⟨perm_update perm, states only⟩, listed, runnable⟩
    rw [procLoop, peeked, ok_bind, if_neg nonNull, peekedThread, ok_bind, loop]
    rfl
  · have perm : (q ++ [x]).Perm (nodes .procList) := by
      rw [order]
      exact List.perm_append_singleton x q
    obtain ⟨shifted, lists'⟩ := lists.shift (v := .procList) trivial order
    change shiftProcList s.procList mem' = _ at shifted
    have zero : (0 : BitVec 32) < BitVec.ofNat 32 roundsPerProc := by decide
    refine .inr ⟨idle, mem', _, legacy.turn lists' (perm_update perm) zero,
      ⟨perm_update perm, states only⟩, fun y tail turned => ?_⟩
    have again := lists'.peek (v := .procList) trivial ((Function.update_self ..).trans turned)
    change peekProcList _ mem' = _ at again
    rw [procLoop, peeked, ok_bind, if_neg nonNull, peekedThread, ok_bind, loop, ok_bind]
    dsimp only
    rw [shifted, ok_bind]
    exact (congrArg (· >>= _) again).trans rfl

/-- What a call that returns has done: the thread is a `RUNNABLE` one of the process at the head of
the list after it. -/
structure Returned (L : Layout) (role : Word → Role) (procs : List Word) (s : LegacySched)
    (nodes : ListVar → List (Word × Word)) (t : Word) (s' : LegacySched)
    (nodes' : ListVar → List (Word × Word)) (y : Word × Word) : Prop where
  legacy : Legacy L role procs s' nodes'
  turned : Turned L role s.mem s'.mem nodes nodes'
  head : ∃ q, nodes' .procList = y :: q
  thread : t ∈ (nodes (.threads y.2)).map Prod.snd
  runnable : Runnable s.mem t

theorem Returned.member {t : Word} {y : Word × Word}
    (returned : Returned L role procs s nodes t s' nodes' y) : y.2 ∈ procs := by
  obtain ⟨q, order⟩ := returned.head
  exact returned.legacy.lists.members y (order ▸ List.mem_cons_self)

theorem Returned.hasRunnable {t : Word} {y : Word × Word}
    (returned : Returned L role procs s nodes t s' nodes' y) : HasRunnable nodes s.mem y.2 := by
  obtain ⟨x, listed, rfl⟩ := List.mem_map.mp returned.thread
  exact ⟨x, listed, returned.runnable⟩

/-- A call that returned after the lists were turned. -/
theorem Returned.after {t : Word} {y : Word × Word} {s₁ : LegacySched}
    {nodes₁ : ListVar → List (Word × Word)} (legacy : Legacy L role procs s nodes)
    (turned : Turned L role s.mem s₁.mem nodes nodes₁)
    (returned : Returned L role procs s₁ nodes₁ t s' nodes' y) :
    Returned L role procs s nodes t s' nodes' y := by
  have inside := ((turned.perm (.threads y.2)).map Prod.snd).mem_iff.mp returned.thread
  refine ⟨returned.legacy, turned.trans returned.turned, returned.head, inside, ?_⟩
  obtain ⟨x, memberX, rfl⟩ := List.mem_map.mp inside
  obtain ⟨thread, page⟩ := legacy.page y.2 returned.member x memberX
  have runnable := returned.runnable
  rwa [Runnable, turned.states x.2 thread page] at runnable

/-- **The loop over processes**, with `done` behind it and `x :: rest` ahead. -/
theorem procLoop_spec {firstProc : Word} (fuel : Nat) : ∀ (rest : List (Word × Word))
    (x : Word × Word) (done : List (Word × Word)) (s : LegacySched)
    (nodes : ListVar → List (Word × Word)), rest.length < fuel →
    nodes .procList = x :: (rest ++ done) → Legacy L role procs s nodes →
    (done ++ x :: rest).head?.map Prod.snd = some firstProc →
    (∃ t s' nodes' y, procLoop firstProc fuel s = .ok (t, s') ∧
      Returned L role procs s nodes t s' nodes' y ∧ (HasRunnable nodes s.mem x.2 → y = x) ∧
      y ∈ x :: rest) ∨
    (procLoop firstProc fuel s = .error noThreads ∧ ¬ HasRunnable nodes s.mem x.2 ∧
      (((done ++ x :: rest).map Prod.snd).Nodup →
        ∀ z ∈ x :: rest, ¬ HasRunnable nodes s.mem z.2)) := by
  induction fuel with
  | zero => exact fun rest _ _ _ _ enough => absurd enough (Nat.not_lt_zero _)
  | succ fuel ih =>
    intro rest x done s nodes enough order legacy head
    rcases procLoop_round legacy order firstProc fuel with
      ⟨t, mem', r, loop, legacy', turned, thread, runnable⟩ |
      ⟨idle, mem', procList', legacy', turned, next⟩
    · have kept : Function.update nodes (.threads x.2) r .procList = x :: (rest ++ done) :=
        (Function.update_of_ne (by nofun) _ _).trans order
      exact .inl ⟨t, _, _, x, loop, ⟨legacy', turned, ⟨_, kept⟩, thread, runnable⟩, fun _ => rfl,
        List.mem_cons_self⟩
    rw [List.append_assoc] at legacy' turned next
    cases rest with
    | nil =>
      obtain ⟨y, tail, again⟩ := List.exists_cons_of_ne_nil
        (List.append_ne_nil_of_right_ne_nil done (List.cons_ne_nil x []))
      refine .inr ⟨?_, idle, fun _ => List.forall_mem_singleton.mpr idle⟩
      rw [again] at head
      rw [next y tail again]
      exact if_neg (not_not.mpr (Option.some.inj head))
    | cons y rest =>
      have regroup : done ++ x :: y :: rest = done ++ [x] ++ y :: rest := List.append_cons ..
      by_cases back : y.2 = firstProc
      · refine .inr ⟨(next y _ rfl).trans (if_neg (not_not.mpr back)), idle, fun nodup => ?_⟩
        exact absurd back (head_unique rfl nodup head)
      have step := (next y _ rfl).trans (if_pos back)
      rw [regroup] at head
      rcases ih rest y (done ++ [x]) _ _ (Nat.lt_of_succ_lt_succ enough) (Function.update_self ..)
        legacy' head with ⟨t, s', nodes', z, loop, returned, -, ahead⟩ | ⟨loop, -, others⟩
      · exact .inl ⟨t, s', nodes', z, step.trans loop, returned.after legacy turned,
          fun runs => absurd runs idle, List.mem_cons_of_mem _ ahead⟩
      · refine .inr ⟨step.trans loop, idle, fun nodup => List.forall_mem_cons.mpr ⟨idle, ?_⟩⟩
        intro z inside runnable
        have member : z.2 ∈ procs := by
          refine legacy.lists.members z ?_
          rw [order]
          exact List.mem_cons_of_mem _ (List.mem_append_left _ inside)
        refine others (regroup ▸ nodup) z inside ?_
        exact (turned.hasRunnable legacy member).mpr runnable

/-- **`get_next_thread`** stays with the process at the head of the list as long as that one has a
`RUNNABLE` thread. Otherwise it goes on to the next one that has, and panics only if there is none. -/
theorem getNextThread_spec (legacy : Legacy L role procs s nodes) {x : Word × Word}
    {rest : List (Word × Word)} (order : nodes .procList = x :: rest) :
    (∃ t s' nodes' y, getNextThread s = .ok (t, s') ∧
      Returned L role procs s nodes t s' nodes' y ∧ (HasRunnable nodes s.mem x.2 → y = x) ∧
      y ∈ x :: rest) ∨
    (getNextThread s = .error noThreads ∧ ¬ HasRunnable nodes s.mem x.2 ∧
      (((x :: rest).map Prod.snd).Nodup → ∀ z ∈ x :: rest, ¬ HasRunnable nodes s.mem z.2)) := by
  have nonNull : s.procList ≠ 0 := legacy.lists.get_ne_zero (v := .procList) trivial order
  have peeked : peekProcList s.procList s.mem = .ok x.2 :=
    legacy.lists.peek (v := .procList) trivial order
  have kept : endSlice s = .ok s := if_neg (BitVec.not_le.mpr legacy.rounds)
  have same : getNextThread s = procLoop x.2 ptrFuel s := by
    rw [getNextThread, if_neg nonNull, peeked, ok_bind, kept, ok_bind]
  rw [same]
  exact procLoop_spec ptrFuel rest x [] s nodes (legacy.lists.length_lt_ptrFuel order)
    (by rw [order, List.append_nil]) legacy rfl

/-! ### Any number of rounds -/

/-- **The processes a call looks at.** At the end of a time slice the list is turned before the loop,
which goes on until it is back at the process that was first before. -/
def examined (s : LegacySched) (ring : List (Word × Word)) : List (Word × Word) :=
  if BitVec.ofNat 32 roundsPerProc ≤ s.currentProcRounds ∧ 2 ≤ ring.length then ring.tail else ring

section Rounds

variable {x : Word × Word} {rest : List (Word × Word)}
  (legacy : Legacy L role procs { s with currentProcRounds := 0 } nodes)
  (expired : BitVec.ofNat 32 roundsPerProc ≤ s.currentProcRounds)

include expired

/-- The loop starts at the first of them; the others are ahead of it. -/
theorem examined_expired (x : Word × Word) (rest : List (Word × Word)) :
    ∃ y q done, rest ++ [x] = y :: (q ++ done) ∧ done ++ y :: q = x :: rest ∧
      examined s (x :: rest) = y :: q := by
  cases rest with
  | nil => exact ⟨x, [], [], rfl, rfl, if_neg fun both => absurd both.2 (Nat.not_succ_le_self 1)⟩
  | cons y q => exact ⟨y, q, [x], rfl, rfl, if_pos ⟨expired, Nat.le_add_left 2 q.length⟩⟩

include legacy

/-- The end of the time slice: the list is turned, and the counter is 0 again. -/
theorem getNextThread_expired (order : nodes .procList = x :: rest) :
    ∃ s₁, getNextThread s = procLoop x.2 ptrFuel s₁ ∧
      Legacy L role procs s₁ (Function.update nodes .procList (rest ++ [x])) ∧
      Turned L role s.mem s₁.mem nodes (Function.update nodes .procList (rest ++ [x])) := by
  have nonNull : s.procList ≠ 0 := legacy.lists.get_ne_zero (v := .procList) trivial order
  have peeked : peekProcList s.procList s.mem = .ok x.2 :=
    legacy.lists.peek (v := .procList) trivial order
  obtain ⟨shifted, lists⟩ := legacy.lists.shift (v := .procList) trivial order
  change shiftProcList s.procList s.mem = _ at shifted
  have turned : endSlice s = .ok ⟨s.mem, nodeNext s.mem x.1, 0⟩ := by
    rw [endSlice, if_pos expired, shifted]
    rfl
  have perm : (rest ++ [x]).Perm (nodes .procList) := by
    rw [order]
    exact List.perm_append_singleton x rest
  have zero : (0 : BitVec 32) < BitVec.ofNat 32 roundsPerProc := by decide
  refine ⟨⟨s.mem, nodeNext s.mem x.1, 0⟩, ?_, legacy.turn lists (perm_update perm) zero,
    perm_update perm, fun _ _ _ => rfl⟩
  rw [getNextThread, if_neg nonNull, peeked, ok_bind, turned, ok_bind]

end Rounds

/-- **A call in any round** returns a `RUNNABLE` thread of a process it looks at, or panics and there
is none. -/
theorem getNextThread_examined (legacy : Legacy L role procs { s with currentProcRounds := 0 } nodes)
    (distinct : ((nodes .procList).map Prod.snd).Nodup) :
    (∃ t s' nodes' y, getNextThread s = .ok (t, s') ∧ Returned L role procs s nodes t s' nodes' y ∧
      y ∈ examined s (nodes .procList)) ∨
    (getNextThread s = .error noThreads ∧
      ∀ z ∈ examined s (nodes .procList), ¬ HasRunnable nodes s.mem z.2) := by
  obtain ⟨x, rest, order⟩ := List.exists_cons_of_ne_nil legacy.processes
  rw [order] at distinct ⊢
  by_cases expired : BitVec.ofNat 32 roundsPerProc ≤ s.currentProcRounds
  · obtain ⟨s₁, call, legacy₁, turned⟩ := getNextThread_expired legacy expired order
    obtain ⟨y, q, done, start, all, ahead⟩ := examined_expired expired x rest
    have order₁ : Function.update nodes .procList (rest ++ [x]) .procList = y :: (q ++ done) :=
      (Function.update_self ..).trans start
    have enough : q.length < ptrFuel := by
      have bound := legacy₁.lists.length_lt_ptrFuel order₁
      rw [List.length_append] at bound
      omega
    rw [call, ahead]
    rw [← all] at distinct
    rcases procLoop_spec ptrFuel q y done s₁ _ enough order₁ legacy₁
      (by rw [all]; rfl) with
      ⟨t, s', nodes', z, loop, returned, -, inside⟩ | ⟨panicked, -, idle⟩
    · obtain ⟨legacy', turned', head, thread, runnable⟩ := returned.after legacy turned
      exact .inl ⟨t, s', nodes', z, loop, ⟨legacy', turned', head, thread, runnable⟩, inside⟩
    · refine .inr ⟨panicked, fun z inside runnable => idle distinct z inside ?_⟩
      have member : z.2 ∈ procs := by
        refine legacy.lists.members z ?_
        rw [order, ← all]
        exact List.mem_append_right _ inside
      exact (turned.hasRunnable (s := { s with currentProcRounds := 0 }) legacy member).mpr runnable
  · have within := BitVec.not_le.mp expired
    have whole : examined s (x :: rest) = x :: rest := if_neg fun both => expired both.1
    have legacy₁ : Legacy L role procs s nodes := legacy.turn legacy.lists (fun _ => .refl _) within
    rw [whole]
    rcases getNextThread_spec legacy₁ order with ⟨t, s', nodes', y, call, returned, -, ahead⟩ |
      ⟨panicked, -, idle⟩
    · exact .inl ⟨t, s', nodes', y, call, returned, ahead⟩
    · exact .inr ⟨panicked, idle distinct⟩

/-- Some process of the ring has a `RUNNABLE` thread. -/
def SomeRunnable (nodes : ListVar → List (Word × Word)) (mem : Mem) : Prop :=
  ∃ x ∈ nodes .procList, HasRunnable nodes mem x.2

/-- **`get_next_thread` finds work**: if there is a `RUNNABLE` thread the call returns one, with the
same elements in every ring, and it panics if there is none. -/
structure FindsWork (L : Layout) (role : Word → Role) (procs : List Word) (s : LegacySched)
    (nodes : ListVar → List (Word × Word)) : Prop where
  returns : SomeRunnable nodes s.mem → ∃ t s' nodes' y, getNextThread s = .ok (t, s') ∧
    Returned L role procs s nodes t s' nodes' y
  panics : ¬ SomeRunnable nodes s.mem → getNextThread s = .error noThreads

/-- Only the process at the head has a `RUNNABLE` thread, there are others, and it is the end of its
time slice. -/
structure PassesOver (s : LegacySched) (nodes : ListVar → List (Word × Word)) : Prop where
  expired : BitVec.ofNat 32 roundsPerProc ≤ s.currentProcRounds
  several : 2 ≤ (nodes .procList).length
  head : SomeRunnable nodes s.mem
  others : ∀ z ∈ (nodes .procList).tail, ¬ HasRunnable nodes s.mem z.2

/-- The process with the `RUNNABLE` thread is not looked at. -/
theorem PassesOver.panics (passes : PassesOver s nodes)
    (legacy : Legacy L role procs { s with currentProcRounds := 0 } nodes)
    (distinct : ((nodes .procList).map Prod.snd).Nodup) : getNextThread s = .error noThreads := by
  have part : examined s (nodes .procList) = (nodes .procList).tail :=
    if_pos ⟨passes.expired, passes.several⟩
  rcases getNextThread_examined legacy distinct with ⟨t, s', nodes', y, -, returned, inside⟩ |
    ⟨panicked, -⟩
  · exact absurd returned.hasRunnable (passes.others y (part ▸ inside))
  · exact panicked

/-- **When the scheduler finds work**, whatever the states of the threads and the round: unless only
the process at the head has a `RUNNABLE` thread, and is passed over. The call panics then. -/
theorem findsWork_iff (legacy : Legacy L role procs { s with currentProcRounds := 0 } nodes)
    (distinct : ((nodes .procList).map Prod.snd).Nodup) :
    (FindsWork L role procs s nodes ↔ ¬ PassesOver s nodes) ∧
      (PassesOver s nodes → getNextThread s = .error noThreads) := by
  have ring : ∀ z ∈ examined s (nodes .procList), z ∈ nodes .procList := by
    intro z inside
    rw [examined] at inside
    split at inside
    · exact List.mem_of_mem_tail inside
    · exact inside
  refine ⟨⟨fun finds passes => ?_, fun seen => ⟨fun work => ?_, fun noWork => ?_⟩⟩,
    fun passes => passes.panics legacy distinct⟩
  · obtain ⟨t, s', nodes', y, call, -⟩ := finds.returns passes.head
    cases call.symm.trans (passes.panics legacy distinct)
  · rcases getNextThread_examined legacy distinct with ⟨t, s', nodes', y, call, returned, -⟩ |
      ⟨-, unseen⟩
    · exact ⟨t, s', nodes', y, call, returned⟩
    · -- The one that is `RUNNABLE` is not among those looked at, so these are not all.
      by_cases part : BitVec.ofNat 32 roundsPerProc ≤ s.currentProcRounds ∧
          2 ≤ (nodes .procList).length
      · rw [examined, if_pos part] at unseen
        exact absurd ⟨part.1, part.2, work, unseen⟩ seen
      · rw [examined, if_neg part] at unseen
        obtain ⟨x, inside, runnable⟩ := work
        exact absurd runnable (unseen x inside)
  · rcases getNextThread_examined legacy distinct with ⟨t, s', nodes', y, -, returned, inside⟩ |
      ⟨panicked, -⟩
    · exact absurd ⟨y, ring y inside, returned.hasRunnable⟩ noWork
    · exact panicked

/-! ### Runs -/

/-- Changes of thread states, one after another. -/
def changeThreadStates (changes : List (Word × SchedState)) (mem : Mem) : Mem :=
  changes.foldl (fun mem change => changeThreadState mem change.1 change.2) mem

/-- A call of `get_next_thread`: the memory it finds, the thread it returns, and the process whose
thread that is, at the head of `proc_list` after the call. -/
structure LegacyCall where
  mem : Mem
  thread : Word
  proc : Word

/-- A call of `get_next_thread`, with changes of the states of threads before it. -/
inductive LegacyStep (isThread : Word → Prop) (s : LegacySched) : LegacyCall → LegacySched → Prop
  | call {s' : LegacySched} {changes : List (Word × SchedState)} {t : Word}
    (threads : ∀ change ∈ changes, isThread change.1)
    (returns : getNextThread { s with mem := changeThreadStates changes s.mem } = .ok (t, s')) :
    LegacyStep isThread s
      ⟨changeThreadStates changes s.mem, t, nodeData s'.mem s'.procList⟩ s'

/-- A thread of the kernel. -/
def IsThread (L : Layout) (role : Word → Role) (t : Word) : Prop := role t = .thread ∧ IsPage L t

theorem Legacy.changes (legacy : Legacy L role procs s nodes) (changes : List (Word × SchedState))
    (threads : ∀ change ∈ changes, IsThread L role change.1) :
    Legacy L role procs { s with mem := changeThreadStates changes s.mem } nodes := by
  have lists : Lists L role procs (changeThreadStates changes s.mem) s.procList nodes := by
    rw [changeThreadStates]
    refine List.foldlRecOn (motive := fun mem => Lists L role procs mem s.procList nodes) changes _
      legacy.lists fun mem lists change member => ?_
    obtain ⟨thread, page⟩ := threads change member
    refine lists.others (List.forall_mem_singleton.mpr page.aligned)
      (List.forall_mem_singleton.mpr ?_)
      ((changeThreadState_only mem change.1 change.2).pages (List.mem_singleton_self _))
      fun _ _ => rfl
    rw [thread]
    trivial
  exact legacy.turn lists (fun _ => .refl _) legacy.rounds

/-- A process of the ring with a `RUNNABLE` thread at a call. -/
def LegacyCall.Ready (nodes : ListVar → List (Word × Word)) (call : LegacyCall) (p : Word) : Prop :=
  p ∈ (nodes .procList).map Prod.snd ∧ HasRunnable nodes call.mem p

/-- The call returned a `RUNNABLE` thread of the process. -/
structure LegacyCall.Serves (nodes : ListVar → List (Word × Word)) (call : LegacyCall) : Prop where
  process : call.proc ∈ (nodes .procList).map Prod.snd
  thread : call.thread ∈ (nodes (.threads call.proc)).map Prod.snd
  runnable : Runnable call.mem call.thread

theorem LegacyCall.Serves.ready {call : LegacyCall} (serves : call.Serves nodes) :
    call.Ready nodes call.proc := by
  obtain ⟨x, inside, same⟩ := List.mem_map.mp serves.thread
  exact ⟨serves.process, x, inside, same ▸ serves.runnable⟩

theorem Returned.proc {t : Word} {y : Word × Word}
    (returned : Returned L role procs s nodes t s' nodes' y) :
    nodeData s'.mem s'.procList = y.2 := by
  obtain ⟨q, order⟩ := returned.head
  have queue := returned.legacy.lists.queue .procList trivial
  rw [order] at queue
  rw [show s'.procList = y.1 from queue.head_eq]
  exact queue.data y List.mem_cons_self

/-- **The scheduler stays** with a process as long as it has a `RUNNABLE` thread. The lists `nodes` are
those of any earlier state, `current` is the process at the head. -/
theorem legacy_sticky {calls : List LegacyCall}
    (run : Run (LegacyStep (IsThread L role)) s calls s') :
    ∀ {nodes' : ListVar → List (Word × Word)} {x : Word × Word} {q : List (Word × Word)}
      (current : LegacyCall), Legacy L role procs s nodes' → (∀ v, (nodes' v).Perm (nodes v)) →
      nodes' .procList = x :: q → current.proc = x.2 →
        (∀ c ∈ calls, c.Serves nodes) ∧
        (current :: calls).IsChain fun c d => d.Ready nodes c.proc → d.proc = c.proc := by
  induction run with
  | nil s => exact fun current _ _ _ _ => ⟨nofun, .singleton current⟩
  | cons step run ih =>
    intro nodes' x q current legacy perm order here
    obtain @⟨s', changes, t, threads, call⟩ := step
    have legacy₁ := legacy.changes changes threads
    rcases getNextThread_spec legacy₁ order with ⟨t', s₂, nodes₂, y, call', returned, stays, -⟩ |
      ⟨panicked, -⟩
    · rw [call] at call'
      cases call'
      obtain ⟨q', order'⟩ := returned.head
      have perm' : ∀ v, (nodes₂ v).Perm (nodes v) := fun v =>
        (returned.turned.perm v).trans (perm v)
      obtain ⟨serves, chain⟩ := ih ⟨_, t, _⟩ returned.legacy perm' order' returned.proc
      refine ⟨List.forall_mem_cons.mpr ⟨⟨?_, ?_, returned.runnable⟩, serves⟩,
        List.isChain_cons_cons.mpr ⟨?_, chain⟩⟩
      · rw [returned.proc]
        refine List.mem_map_of_mem ((perm' .procList).mem_iff.mp ?_)
        rw [order']
        exact List.mem_cons_self
      · rw [returned.proc]
        exact ((perm _).map Prod.snd).mem_iff.mp returned.thread
      · rintro ⟨-, z, inside, runnable⟩
        rw [here] at inside ⊢
        rw [returned.proc, stays ⟨z, (perm _).mem_iff.mpr inside, runnable⟩]
    · rw [call] at panicked
      cases panicked

/-- **Time slices.** Every call returns a `RUNNABLE` thread of the process it serves, and no process is
served more than `ROUNDS_PER_PROC` times in a row while another has a `RUNNABLE` thread at each of
these calls exactly if, for every process that is served while another has one at that call and the
next `ROUNDS_PER_PROC`, it has none itself at one of these. -/
theorem timeSlices_iff (legacy : Legacy L role procs s nodes) {calls : List LegacyCall}
    (run : Run (LegacyStep (IsThread L role)) s calls s') :
    (∀ c ∈ calls, c.Serves nodes) ∧
      (Fair LegacyCall.proc (LegacyCall.Ready nodes) roundsPerProc calls ↔
        Released LegacyCall.proc (LegacyCall.Ready nodes) roundsPerProc calls) := by
  obtain ⟨x, q, order⟩ := List.exists_cons_of_ne_nil legacy.processes
  obtain ⟨serves, chain⟩ := legacy_sticky run ⟨s.mem, 0, x.2⟩ legacy (fun _ => .refl _) order rfl
  have sticky : Sticky LegacyCall.proc (LegacyCall.Ready nodes) calls :=
    ⟨fun c member => (serves c member).ready, chain.tail⟩
  exact ⟨serves, sticky.fair_iff⟩

/-- **As long as nothing changes** the process at the head is served for ever. -/
theorem legacy_stays (isThread : Word → Prop) (n : Nat) : ∀ (s : LegacySched)
    (nodes : ListVar → List (Word × Word)) (x : Word × Word) (q : List (Word × Word)),
    Legacy L role procs s nodes → nodes .procList = x :: q → HasRunnable nodes s.mem x.2 →
      ∃ calls s', Run (LegacyStep isThread) s calls s' ∧ calls.length = n ∧ ∀ c ∈ calls,
        c.proc = x.2 ∧ ∀ p ∈ procs, HasRunnable nodes c.mem p ↔ HasRunnable nodes s.mem p := by
  induction n with
  | zero => exact fun s _ _ _ _ _ _ => ⟨[], s, .nil s, rfl, nofun⟩
  | succ n ih =>
    intro s nodes x q legacy order runnable
    rcases getNextThread_spec legacy order with ⟨t, s', nodes', y, call, returned, stays, -⟩ |
      ⟨-, idle, -⟩
    · obtain rfl := stays runnable
      obtain ⟨q', order'⟩ := returned.head
      have same := fun p member =>
        returned.turned.hasRunnable (p := p) legacy member
      have still := (same y.2 returned.member).mpr runnable
      obtain ⟨calls, last, run, length, served⟩ := ih s' nodes' y q' returned.legacy order' still
      have first : getNextThread { s with mem := changeThreadStates [] s.mem } = .ok (t, s') := call
      have unchanged : ∀ change ∈ ([] : List (Word × SchedState)), isThread change.1 := nofun
      refine ⟨_, last, .cons (.call unchanged first) run, congrArg (· + 1) length, ?_⟩
      refine List.forall_mem_cons.mpr ⟨⟨returned.proc, fun p _ => Iff.rfl⟩, fun c inside => ?_⟩
      obtain ⟨proc, kept⟩ := served c inside
      refine ⟨proc, fun p member => ?_⟩
      have turned : HasRunnable nodes' c.mem p ↔ HasRunnable nodes c.mem p :=
        exists_congr fun z => and_congr_left' (returned.turned.perm _).mem_iff
      rw [← turned, kept p member, same p member]
    · exact absurd runnable idle

/-- Two processes with one `RUNNABLE` thread each, as the words of their pages. -/
def demoWords : List (Word × Word) :=
  [(0x200010, 0x204000), (0x201010, 0x205000),
    (0x202000, 0x200000), (0x202008, 0x203000), (0x202010, 0x203000),
    (0x203000, 0x201000), (0x203008, 0x202000), (0x203010, 0x202000),
    (0x204000, 0x206000), (0x204008, 0x204000), (0x204010, 0x204000),
    (0x205000, 0x207000), (0x205008, 0x205000), (0x205010, 0x205000),
    (0x206030, 1), (0x207030, 1)]

def demoLegacy : LegacySched :=
  ⟨demoWords.foldl (fun mem word => store64 mem word.1 word.2) fun _ => 0, 0x202000, 0⟩

def demoNodes : ListVar → List (Word × Word)
  | .procList => [(0x202000, 0x200000), (0x203000, 0x201000)]
  | .threads proc =>
    if proc = 0x200000 then [(0x204000, 0x206000)]
    else if proc = 0x201000 then [(0x205000, 0x207000)] else []

def demoRole (p : Word) : Role :=
  if p = 0x200000 ∨ p = 0x201000 then .process
  else if p = 0x202000 ∨ p = 0x203000 then .node .procList
  else if p = 0x204000 then .node (.threads 0x200000)
  else if p = 0x205000 then .node (.threads 0x201000)
  else .thread

/-- A statement about the two processes. -/
theorem demoProcesses_forall {P : Word → Prop} (first : P 0x200000) (second : P 0x201000) :
    ∀ p ∈ ([0x200000, 0x201000] : List Word), P p :=
  List.forall_mem_cons.mpr ⟨first, List.forall_mem_singleton.mpr second⟩

/-- A statement about the three lists. -/
theorem demoNodes_forall {P : ListVar → List (Word × Word) → Prop}
    (procList : P .procList (demoNodes .procList))
    (first : P (.threads 0x200000) [(0x204000, 0x206000)])
    (second : P (.threads 0x201000) [(0x205000, 0x207000)]) (others : ∀ v, P v []) (v : ListVar) :
    P v (demoNodes v) := by
  cases v with
  | procList => exact procList
  | threads proc =>
    by_cases one : proc = 0x200000
    · subst one
      exact first
    · by_cases two : proc = 0x201000
      · subst two
        exact second
      · rw [demoNodes, if_neg one, if_neg two]
        exact others _

theorem demoLegacy_lists : Lists demoLayout demoRole [0x200000, 0x201000] demoLegacy.mem
    demoLegacy.procList demoNodes where
  process := demoProcesses_forall (by decide) (by decide)
  node := demoNodes_forall (P := fun v q => ∀ x ∈ q, demoRole x.1 = .node v ∧ IsPage demoLayout x.1)
    (List.forall_mem_cons.mpr ⟨by decide, List.forall_mem_singleton.mpr (by decide)⟩)
    (List.forall_mem_singleton.mpr (by decide)) (List.forall_mem_singleton.mpr (by decide))
    fun _ => nofun
  nodup := demoNodes_forall (P := fun _ q => (q.map Prod.fst).Nodup) (by decide) (by decide)
    (by decide) fun _ => List.nodup_nil
  queue := by
    rintro (_ | proc) of
    · refine ⟨rfl, ⟨List.isChain_cons_cons.mpr ⟨⟨by decide +kernel, by decide +kernel⟩,
        .singleton _⟩, ?_⟩, List.forall_mem_cons.mpr ⟨by decide +kernel,
        List.forall_mem_singleton.mpr (by decide +kernel)⟩⟩
      rintro z ⟨⟩ h ⟨⟩
      exact ⟨by decide +kernel, by decide +kernel⟩
    · revert proc
      refine demoProcesses_forall ⟨by decide +kernel, ?_, ?_⟩ ⟨by decide +kernel, ?_, ?_⟩
      · exact (Ring.isRing_singleton _).mpr ⟨by decide +kernel, by decide +kernel⟩
      · exact List.forall_mem_singleton.mpr (by decide +kernel)
      · exact (Ring.isRing_singleton _).mpr ⟨by decide +kernel, by decide +kernel⟩
      · exact List.forall_mem_singleton.mpr (by decide +kernel)
  members := List.forall_mem_cons.mpr ⟨by decide, List.forall_mem_singleton.mpr (by decide)⟩

theorem demoLegacy_rings :
    Legacy demoLayout demoRole [0x200000, 0x201000] demoLegacy demoNodes where
  lists := demoLegacy_lists
  processes := by decide
  threads := demoProcesses_forall (by decide) (by decide)
  distinct := demoProcesses_forall (by decide) (by decide)
  page := demoProcesses_forall (List.forall_mem_singleton.mpr (by decide))
    (List.forall_mem_singleton.mpr (by decide))
  rounds := by decide

theorem demoLegacy_runnable : ∀ p ∈ ([0x200000, 0x201000] : List Word),
    HasRunnable demoNodes demoLegacy.mem p :=
  demoProcesses_forall ⟨(0x204000, 0x206000), by decide, by decide +kernel⟩
    ⟨(0x205000, 0x207000), by decide, by decide +kernel⟩

/-- Five calls, all for the first process. -/
theorem timeSlices_five : ∃ calls s,
    Run (LegacyStep (IsThread demoLayout demoRole)) demoLegacy calls s ∧ calls.length = 5 ∧
      Fair LegacyCall.proc (LegacyCall.Ready demoNodes) roundsPerProc calls := by
  obtain ⟨calls, s, run, length, -⟩ := legacy_stays (IsThread demoLayout demoRole) 5 demoLegacy
    demoNodes _ _ demoLegacy_rings rfl (demoLegacy_runnable _ List.mem_cons_self)
  refine ⟨calls, s, run, length, (timeSlices_iff demoLegacy_rings run).2.mpr ?_⟩
  intro c next part enough
  have bound := part.length_le
  rw [List.length_cons, enough, length] at bound
  exact absurd bound (by decide)

/-- **The sixth call serves the first process again**, while the thread of the second was `RUNNABLE`
all the time. -/
theorem sixth_slice : ∃ calls s,
    Run (LegacyStep (IsThread demoLayout demoRole)) demoLegacy calls s ∧ calls.length = 6 ∧
    (∀ c ∈ calls, c.proc = 0x200000 ∧ c.Ready demoNodes 0x201000) ∧
    ¬ Fair LegacyCall.proc (LegacyCall.Ready demoNodes) roundsPerProc calls := by
  obtain ⟨calls, s, run, length, served⟩ := legacy_stays (IsThread demoLayout demoRole) 6 demoLegacy
    demoNodes _ _ demoLegacy_rings rfl (demoLegacy_runnable _ List.mem_cons_self)
  have waits : ∀ c ∈ calls, c.Ready demoNodes 0x201000 := by
    intro c member
    refine ⟨by decide, ((served c member).2 0x201000 (by decide)).mpr ?_⟩
    exact demoLegacy_runnable _ (by decide)
  refine ⟨calls, s, run, length, fun c member => ⟨(served c member).1, waits c member⟩, fun fair => ?_⟩
  exact fair calls (List.infix_refl _) length 0x200000 (fun c member => (served c member).1)
    0x201000 (by decide) waits

/-- With both processes `RUNNABLE` the call returns, also at the end of a time slice. -/
theorem findsWork_seventh : ∃ t s', getNextThread { demoLegacy with currentProcRounds := 7 } =
    .ok (t, s') := by
  have seen : ¬ PassesOver { demoLegacy with currentProcRounds := 7 } demoNodes := fun passes =>
    passes.others (0x203000, 0x201000) (by decide) (demoLegacy_runnable _ (by decide))
  have finds := (findsWork_iff (s := { demoLegacy with currentProcRounds := 7 }) demoLegacy_rings
    (by decide)).1.mpr seen
  obtain ⟨t, s', _, _, call, -⟩ :=
    finds.returns ⟨_, List.mem_cons_self, demoLegacy_runnable _ List.mem_cons_self⟩
  exact ⟨t, s', call⟩

/-- **The only `RUNNABLE` thread is not found**: at the end of a time slice of the first process, with
the thread of the second waiting, the call panics. -/
theorem passes_over_head : ∃ s : LegacySched, s.currentProcRounds = 5 ∧
    Legacy demoLayout demoRole [0x200000, 0x201000] { s with currentProcRounds := 0 } demoNodes ∧
    SomeRunnable demoNodes s.mem ∧ getNextThread s = .error noThreads := by
  have legacy := demoLegacy_rings.changes [(0x207000, .wait)]
    (List.forall_mem_singleton.mpr ⟨by decide, by decide⟩)
  have work : SomeRunnable demoNodes (changeThreadStates [(0x207000, .wait)] demoLegacy.mem) :=
    ⟨(0x202000, 0x200000), by decide, (0x204000, 0x206000), by decide, by decide +kernel⟩
  have waits : ¬ HasRunnable demoNodes (changeThreadStates [(0x207000, .wait)] demoLegacy.mem)
      0x201000 := by
    rintro ⟨x, listed, runnable⟩
    obtain rfl := List.mem_singleton.mp listed
    exact absurd runnable (by decide +kernel)
  refine ⟨⟨_, demoLegacy.procList, 5⟩, rfl, legacy, work, ?_⟩
  refine PassesOver.panics ⟨by decide, by decide, work, ?_⟩ legacy (by decide)
  exact List.forall_mem_singleton.mpr waits

end ShipOS
