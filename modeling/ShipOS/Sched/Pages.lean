/-
**The pages of the scheduler.**

A run queue has a page of the allocator for each of its nodes. A call takes pages for new nodes from the
free list and gives those of removed nodes back; beyond them it writes to the records of threads.

* `Moves` — what a call does with the pages: nodes and free pages come from the nodes and the free pages
  there were, and no other byte changes but those of threads;
* `SchedCall.moves` — every call does so, and keeps the invariant of the queues;
* `SchedCall.currentHeld` — and the CPUs run threads that are held.
-/

import ShipOS.Sched.RunQueues

namespace ShipOS

open ByteMem Ring Runs

variable {n : Nat} {L : Layout} {held : Word → Prop} {s s' s'' : Sched n}
  {free free' free'' : List Word}
  {nodes nodes' nodes'' : Fin (n + 1) → List (Word × Word)} {c : Fin (n + 1)} {t : Word}
  {cpu : PerCpu} {phys : Phys}

/-- A page that is free or has a node on it. -/
def NodePool (free : List Word) (nodes : Fin (n + 1) → List (Word × Word)) (p : Word) : Prop :=
  p ∈ free ∨ ∃ c, ∃ x ∈ nodes c, x.1 = p

/-- **What a call does with the pages.** -/
structure Moves (L : Layout) (held : Word → Prop) (s : Sched n) (free : List Word)
    (nodes : Fin (n + 1) → List (Word × Word)) (s' : Sched n) (free' : List Word)
    (nodes' : Fin (n + 1) → List (Word × Word)) : Prop where
  queues : Queues L held s' free' nodes'
  node : ∀ c, ∀ x ∈ nodes' c, NodePool free nodes x.1
  back : ∀ p ∈ free', NodePool free nodes p
  frame : ∀ a, (∀ p, NodePool free nodes p → ¬ (a - p).toNat < 4096) →
    (∀ t, held t → ¬ (a - t).toNat < 4096) → s'.phys.mem a = s.phys.mem a

theorem Moves.refl (inv : Queues L held s free nodes) : Moves L held s free nodes s free nodes :=
  ⟨inv, fun c x member => .inr ⟨c, x, member, rfl⟩, fun _ => .inl, fun _ _ _ => rfl⟩

theorem Moves.pool (first : Moves L held s free nodes s' free' nodes') {p : Word}
    (there : NodePool free' nodes' p) : NodePool free nodes p := by
  rcases there with given | ⟨c, x, member, rfl⟩
  · exact first.back p given
  · exact first.node c x member

theorem Moves.trans (first : Moves L held s free nodes s' free' nodes')
    (second : Moves L held s' free' nodes' s'' free'' nodes'') :
    Moves L held s free nodes s'' free'' nodes'' :=
  ⟨second.queues, fun c x member => first.pool (second.node c x member),
    fun p member => first.pool (second.back p member), fun a off threads =>
      (second.frame a (fun p there => off p (first.pool there)) threads).trans
        (first.frame a off threads)⟩

/-- The records of the CPUs change, but not the queues. -/
theorem Moves.records (first : Moves L held s free nodes s' free' nodes') (phys : s''.phys = s'.phys)
    (same : ∀ d, (s''.cpus d).runQueue = (s'.cpus d).runQueue ∧
      (s''.cpus d).numThreads = (s'.cpus d).numThreads ∧
      (s''.cpus d).idleThread = (s'.cpus d).idleThread) :
    Moves L held s free nodes s'' free' nodes' :=
  ⟨first.queues.records phys same, first.node, first.back, fun a off threads => by
    rw [phys]
    exact first.frame a off threads⟩

theorem Moves.write (inv : Queues L held s free nodes) (isHeld : held t) (state : SchedState) :
    Moves L held s free nodes
      { s with phys := { s.phys with mem := changeThreadState s.phys.mem t state } } free nodes :=
  have only := changeThreadState_only s.phys.mem t state
  ⟨inv.write isHeld only, fun c x member => .inr ⟨c, x, member, rfl⟩, fun _ => .inl,
    fun a _ threads => only a (threads t isHeld)⟩

/-! ### Adding and removing -/

theorem moves_add (inv : Queues L held s free nodes) (isHeld : held t) (unqueued : Unqueued nodes t)
    (notIdle : ∀ d, t ≠ (s.cpus d).idleThread)
    (done : runqueueAddUnlocked (s.cpus c) t s.phys = .ok (cpu, phys)) :
    ∃ f rest, free = f :: rest ∧ Moves L held s free nodes (s.set c cpu phys) rest
      (Function.update nodes c (nodes c ++ [(f, t)])) := by
  rcases free with _ | ⟨f, rest⟩
  · rw [runqueueAddUnlocked, pushThreadList_exhausted inv.list] at done
    cases done
  obtain ⟨cpu', phys', done', -, -, queues, -⟩ := inv.add (c := c) isHeld unqueued notIdle
  rw [done] at done'
  cases done'
  obtain ⟨head, phys', pushed, -, -, only⟩ := pushThreadList_spec t inv.list (inv.queue c) (inv.pages c)
    fun x member => (inv.occupancy.page c x member).2
  rw [runqueueAddUnlocked, pushed] at done
  cases done
  refine ⟨f, rest, rfl, queues, fun d x member => ?_, fun p member => .inl (.tail f member),
    fun a off _ => only a (List.forall_mem_cons.mpr ⟨off f (.inl (.head rest)), fun p node => ?_⟩)⟩
  · rcases mem_push member with old | ⟨-, rfl⟩
    · exact .inr ⟨d, x, old, rfl⟩
    · exact .inl (.head rest)
  · obtain ⟨x, member, rfl⟩ := List.mem_map.mp node
    exact off x.1 (.inr ⟨c, x, member, rfl⟩)

/-- Only the pages of the queue's nodes are written. -/
theorem runqueueRemove_only (inv : Queues L held s free nodes) {removed : Bool}
    (done : runqueueRemoveUnlocked L (s.cpus c) t s.phys = .ok (removed, cpu, phys)) :
    OnlyPages ((nodes c).map Prod.fst) s.phys.mem phys.mem := by
  rw [runqueueRemoveUnlocked] at done
  split at done
  · cases done
    exact OnlyPages.refl _ _
  · rename_i nonempty
    rw [scanQueue_eq (inv.queue c) (inv.pages c) nonempty, ok_bind] at done
    cases search : (nodes c).find? fun x => decide (nodeData s.phys.mem x.1 = t) with
    | none =>
      rw [search] at done
      cases done
      exact OnlyPages.refl _ _
    | some x =>
      rw [search] at done
      obtain ⟨⟨head, phys'⟩, removedNode, last⟩ := bind_ok done
      cases last
      obtain ⟨pre, post, split⟩ := List.append_of_mem (List.mem_of_find?_eq_some search)
      have queue := inv.queue c
      have pages := inv.pages c
      have apart := fun y inside => (inv.occupancy.page c y inside).2
      rw [split] at queue pages apart ⊢
      obtain ⟨head', phys'', removedNode', -, -, only⟩ := removeNode_spec inv.list queue pages apart
      rw [removedNode] at removedNode'
      cases removedNode'
      exact only

theorem moves_remove (inv : Queues L held s free nodes) {removed : Bool}
    (done : runqueueRemoveUnlocked L (s.cpus c) t s.phys = .ok (removed, cpu, phys)) :
    ∃ free', Moves L held s free nodes (s.set c cpu phys) free'
      (Function.update nodes c (without t (nodes c))) := by
  have only := runqueueRemove_only inv done
  have frame : ∀ a, (∀ p, NodePool free nodes p → ¬ (a - p).toNat < 4096) →
      phys.mem a = s.phys.mem a := by
    intro a off
    refine only a fun p node => ?_
    obtain ⟨x, member, rfl⟩ := List.mem_map.mp node
    exact off x.1 (.inr ⟨c, x, member, rfl⟩)
  have node : ∀ d, ∀ x ∈ Function.update nodes c (without t (nodes c)) d, NodePool free nodes x.1 := by
    intro d x member
    rcases mem_update.mp member with ⟨rfl, kept⟩ | ⟨-, old⟩
    · exact .inr ⟨d, x, List.mem_of_mem_filter kept, rfl⟩
    · exact .inr ⟨d, x, old, rfl⟩
  by_cases here : At nodes c t
  · obtain ⟨x, member⟩ := here
    obtain ⟨pre, post, split⟩ := List.append_of_mem member
    obtain ⟨cpu', phys', done', -, -, queues, -⟩ := inv.remove_found split
    rw [done] at done'
    cases done'
    rw [← inv.without_eq split] at queues
    refine ⟨x :: free, queues, node, fun p given => ?_, fun a off _ => frame a off⟩
    rcases List.mem_cons.mp given with rfl | old
    · exact .inr ⟨c, (p, t), member, rfl⟩
    · exact .inl old
  · have absent := absent_iff.mp here
    rw [inv.remove_absent absent] at done
    cases done
    rw [without_eq_self absent, Function.update_eq_self, Sched.set_same]
    exact ⟨free, .refl inv⟩

/-! ### The calls -/

theorem moves_schedAddThread {cpuIndex : BitVec 32} (inv : Queues L held s free nodes)
    (isHeld : held t) (unqueued : Unqueued nodes t) (notIdle : ∀ d, t ≠ (s.cpus d).idleThread)
    (done : schedAddThread t cpuIndex s = .ok s') :
    ∃ free' nodes', Moves L held s free nodes s' free' nodes' := by
  obtain ⟨d, added⟩ := schedAddThread_target done
  obtain ⟨⟨cpu, phys⟩, pushed, last⟩ := bind_ok added
  cases last
  have marked := Moves.write inv isHeld .runnable
  obtain ⟨f, rest, -, moved⟩ := moves_add (c := d) marked.queues isHeld unqueued notIdle pushed
  exact ⟨rest, _, marked.trans moved⟩

theorem moves_removeLoop : ∀ (cpus : List (Fin (n + 1))) {s : Sched n} {free : List Word}
    {nodes : Fin (n + 1) → List (Word × Word)}, Queues L held s free nodes →
      removeLoop L t cpus s = .ok s' → ∃ free' nodes', Moves L held s free nodes s' free' nodes'
  | [], s, free, nodes, inv, done => by
    cases done
    exact ⟨free, nodes, .refl inv⟩
  | i :: rest, s, free, nodes, inv, done => by
    obtain ⟨⟨removed, cpu, phys⟩, ran, last⟩ := bind_ok done
    obtain ⟨free', moved⟩ := moves_remove inv ran
    dsimp only at last
    split at last
    · cases last
      exact ⟨free', _, moved⟩
    · obtain ⟨free'', nodes'', more⟩ := moves_removeLoop rest moved.queues last
      exact ⟨free'', nodes'', moved.trans more⟩

theorem moves_schedRemoveThread (inv : Queues L held s free nodes)
    (done : schedRemoveThread L t s = .ok s') :
    ∃ free' nodes', Moves L held s free nodes s' free' nodes' := by
  rw [schedRemoveThread] at done
  split at done
  · cases done
    exact ⟨free, nodes, .refl inv⟩
  · exact moves_removeLoop _ inv done

theorem moves_schedDispatch {next : Word} (inv : Queues L held s free nodes)
    (done : schedDispatch c s = .ok (next, s')) :
    ∃ free' nodes', Moves L held s free nodes s' free' nodes' := by
  -- The thread found, and the queue turned so that it comes last.
  have chosen : ∃ cpu nodes', schedGetNext (s.cpus c) s.phys.mem = .ok (next, cpu) ∧ held next ∧
      Moves L held s free nodes (s.set c cpu s.phys) free nodes' := by
    obtain ⟨⟨next', cpu⟩, got, last⟩ := bind_ok done
    have same : next' = next := by
      dsimp only at last
      split at last <;> cases last <;> rfl
    subst same
    rcases schedGetNext_spec inv c with ⟨-, idle⟩ |
      ⟨pre, x, post, cpu', split, -, -, found, -, -, queues⟩
    · rw [got] at idle
      cases idle
      refine ⟨_, nodes, got, inv.idleHeld c, ?_⟩
      rw [Sched.set_same]
      exact .refl inv
    · rw [got] at found
      cases found
      have member : x ∈ nodes c := by
        rw [split]
        exact List.mem_append_right _ List.mem_cons_self
      refine ⟨_, _, got, inv.occupancy.queued c x member, queues, fun d y turned => ?_, fun _ => .inl,
        fun _ _ _ => rfl⟩
      rcases mem_update.mp turned with ⟨rfl, here⟩ | ⟨-, old⟩
      · refine .inr ⟨d, y, ?_, rfl⟩
        rw [split]
        simp only [List.mem_append, List.mem_cons, List.not_mem_nil, or_false] at here ⊢
        tauto
      · exact .inr ⟨d, y, old, rfl⟩
  obtain ⟨cpu, nodes', got, isHeld, turned⟩ := chosen
  have nonNull : next ≠ 0 := inv.held_ne_zero isHeld
  rw [schedDispatch, got, ok_bind] at done
  dsimp only at done
  rw [if_pos nonNull] at done
  cases done
  have marked := turned.trans (Moves.write turned.queues isHeld .onCpu)
  refine ⟨free, nodes', marked.records rfl fun d => ?_⟩
  by_cases here : d = c
  · rw [here, Sched.set_self]
    simp only [Sched.set, Function.update_self, and_self]
  · rw [Sched.set_ne _ here]
    simp only [Sched.set, Function.update_of_ne here, and_self]

theorem moves_schedYield (inv : Queues L held s free nodes)
    (current : (s.cpus c).currentThread = 0 ∨ held (s.cpus c).currentThread) :
    Moves L held s free nodes (schedYield c s).2 free nodes := by
  rw [schedYield]
  dsimp only
  split
  · exact .refl inv
  · rename_i runs
    have isHeld := current.resolve_left fun nobody => runs (.inl nobody)
    exact (Moves.write inv isHeld .runnable).records rfl fun d => by
      by_cases here : d = c
      · rw [here, Sched.set_self]
        exact ⟨rfl, rfl, rfl⟩
      · rw [Sched.set_ne _ here]
        exact ⟨rfl, rfl, rfl⟩

theorem moves_schedExit {switched : Bool} (inv : Queues L held s free nodes)
    (current : (s.cpus c).currentThread = 0 ∨ held (s.cpus c).currentThread)
    (done : schedExit L c s = .ok (switched, s')) :
    ∃ free' nodes', Moves L held s free nodes s' free' nodes' := by
  rw [schedExit] at done
  dsimp only at done
  split at done
  · cases done
    exact ⟨free, nodes, .refl inv⟩
  · rename_i runs
    have isHeld := current.resolve_left fun nobody => runs (.inl nobody)
    obtain ⟨⟨removed, cpu, phys⟩, ran, last⟩ := bind_ok done
    cases last
    have marked := Moves.write inv isHeld .exit
    obtain ⟨free', moved⟩ := moves_remove (c := c) marked.queues ran
    refine ⟨free', _, (marked.trans moved).records rfl fun d => ?_⟩
    by_cases here : d = c
    · rw [here, Sched.set_self, Sched.set_self]
      exact ⟨rfl, rfl, rfl⟩
    · rw [Sched.set_ne _ here, Sched.set_ne _ here]
      exact ⟨rfl, rfl, rfl⟩

theorem moves_migrate {src dst : Fin (n + 1)} {x : Word} (inv : Queues L held s free nodes)
    (member : (x, t) ∈ nodes src) (done : migrate L src dst t s = .ok s') :
    ∃ free' nodes', Moves L held s free nodes s' free' nodes' := by
  obtain ⟨⟨removed, cpu, phys⟩, ran, later⟩ := bind_ok done
  obtain ⟨⟨cpu₂, phys₂⟩, added, last⟩ := bind_ok later
  cases last
  obtain ⟨free₁, first⟩ := moves_remove inv ran
  have unqueued : Unqueued (Function.update nodes src (without t (nodes src))) t := by
    refine unqueued_iff.mpr fun d there => ?_
    obtain ⟨⟨y, was⟩, notSrc⟩ := at_without.mp there
    exact notSrc ⟨(inv.occupancy.unique d src _ was _ member (.inr rfl)).1, rfl⟩
  have notIdle : ∀ d, t ≠ ((s.set src cpu phys).cpus d).idleThread := by
    obtain ⟨removed', cpu', phys', free', ran', -, cpus, -⟩ := inv.remove src t
    rw [ran] at ran'
    cases ran'
    intro d
    rw [cpus.idle]
    exact inv.notIdle src d _ member
  obtain ⟨f, rest, -, second⟩ := moves_add (c := dst) first.queues
    (inv.occupancy.queued src _ member) unqueued notIdle added
  exact ⟨rest, _, first.trans second⟩

theorem moves_schedBalance (inv : Queues L held s free nodes) (done : schedBalance L s = .ok s') :
    ∃ free' nodes', Moves L held s free nodes s' free' nodes' := by
  rw [schedBalance] at done
  dsimp only at done
  split at done
  · cases done
    exact ⟨free, nodes, .refl inv⟩
  · split at done
    · rename_i nonempty
      rw [scanQueue_eq (inv.queue _) (inv.pages _) nonempty.1, ok_bind] at done
      cases search : (nodes (findLoads s.cpus).maxCpu).find?
          (fun x => migratable (s.cpus (findLoads s.cpus).maxCpu) s.phys.mem x.1) with
      | none =>
        rw [search] at done
        cases done
        exact ⟨free, nodes, .refl inv⟩
      | some x =>
        rw [search] at done
        have member := List.mem_of_find?_eq_some search
        have data := (inv.queue _).data x member
        simp only [Option.map_some, data] at done
        exact moves_migrate inv member done
    · cases done
      exact ⟨free, nodes, .refl inv⟩

/-- The CPUs run nothing, or threads that are held. -/
def CurrentHeld (held : Word → Prop) (s : Sched n) : Prop :=
  ∀ c, (s.cpus c).currentThread = 0 ∨ held (s.cpus c).currentThread

/-- **Every call of the scheduler** moves pages between the free list and the queues only. -/
theorem SchedCall.moves {call : SchedCall n} (inv : Queues L held s free nodes)
    (current : CurrentHeld held s) (step : SchedStep L held s call s') :
    ∃ free' nodes', Moves L held s free nodes s' free' nodes' := by
  obtain ⟨allowed, done⟩ := step
  cases call with
  | add t cpuIndex =>
    obtain ⟨isHeld, notIdle, unqueued, -⟩ := allowed
    refine moves_schedAddThread inv isHeld (unqueued_iff.mpr fun c there => ?_) notIdle done
    exact unqueued c (inv.inQueue_iff.mpr there)
  | remove t => exact moves_schedRemoveThread inv done
  | dispatch c =>
    cases ran : schedDispatch c s with
    | error halt =>
      rw [exec, ran] at done
      cases done
    | ok outcome =>
      obtain ⟨next, s₁⟩ := outcome
      rw [exec, ran] at done
      cases done
      exact moves_schedDispatch inv ran
  | yield c =>
    cases done
    exact ⟨free, nodes, moves_schedYield inv (current c)⟩
  | exit c t =>
    cases ran : schedExit L c s with
    | error halt =>
      rw [exec, ran] at done
      cases done
    | ok outcome =>
      obtain ⟨switched, s₁⟩ := outcome
      rw [exec, ran] at done
      cases done
      exact moves_schedExit inv (current c) ran
  | balance => exact moves_schedBalance inv done

theorem CurrentHeld.same (before : CurrentHeld held s) (same : SameCpus s s') :
    CurrentHeld held s' := by
  intro c
  rw [same.current c]
  exact before c

theorem CurrentHeld.set (before : CurrentHeld held s) (set : SetCurrent s c t s')
    (now : t = 0 ∨ held t) : CurrentHeld held s' := by
  intro d
  by_cases here : d = c
  · rw [here, set.here]
    exact now
  · rw [set.other d here]
    exact before d

theorem SchedCall.currentHeld {call : SchedCall n} (inv : Queues L held s free nodes)
    (current : CurrentHeld held s) (step : SchedStep L held s call s') : CurrentHeld held s' := by
  obtain ⟨allowed, done⟩ := step
  cases call with
  | add t cpuIndex =>
    obtain ⟨isHeld, notIdle, unqueued, -⟩ := allowed
    have nowhere : Unqueued nodes t :=
      unqueued_iff.mpr fun c there => unqueued c (inv.inQueue_iff.mpr there)
    obtain ⟨-, -, -, -, -, same, -⟩ := schedAddThread_spec inv isHeld nowhere notIdle done
    exact current.same same
  | remove t =>
    obtain ⟨s₁, -, ran, -, same, -⟩ := schedRemoveThread_spec inv t
    cases done.symm.trans ran
    exact current.same same
  | dispatch c =>
    obtain ⟨next, s₁, -, ran, -, -, set, isHeld, -⟩ := schedDispatch_spec inv c
    rw [exec, ran] at done
    cases done
    exact current.set set (.inr isHeld)
  | yield c =>
    cases done
    rw [schedYield]
    dsimp only
    split
    · exact current
    · exact current.same (sameCpus_set rfl rfl)
  | exit c t =>
    by_cases runs : (s.cpus c).currentThread = 0 ∨ (s.cpus c).currentThread = (s.cpus c).idleThread
    · rw [exec, schedExit] at done
      dsimp only at done
      rw [if_pos runs] at done
      cases done
      exact current
    · rw [not_or] at runs
      obtain ⟨s₁, -, ran, -, set, -⟩ :=
        schedExit_spec inv c ((current c).resolve_left runs.1) runs.2
      rw [exec, ran] at done
      cases done
      exact current.set set (.inl rfl)
  | balance =>
    obtain ⟨s₁, -, -, ran, -, same, -⟩ := schedBalance_spec inv
    cases done.symm.trans ran
    exact current.same same

end ShipOS
