/-
**The subsystems of the kernel do not disturb each other.**

Calls of the page tables, of the processes, of the scheduler and of the other users of `kalloc` follow
one another in any order. Each takes pages from the free list and gives pages back.

* `exchange_mapping`, `exchange_process`, `exchange_createThread`, `exchange_sched`, … — a call
  writes to pages of its own subsystem and to free pages, and keeps what the subsystem relies on;
* `kernel_sharing` — after any calls no page is lost or in two hands, and what a subsystem has
  set up is as it left it through any calls of the others: the address space, the lists of
  processes, the run queues with the records of the threads, and the pages of the other users.
-/

import ShipOS.Kernel.Clients

namespace ShipOS

open ByteMem PathTree Ring Pool Runs

variable {n : Nat} {L : Layout} {root : Word} {k k' s t : KernelState n} {free free' : List Word}
  {R : Set Word} {phys : Phys}

/-- A byte is on one page at most. -/
theorem page_unique {p q a : Word} (alignedP : PageAligned p) (alignedQ : PageAligned q)
    (inP : Within p 4096 a) (inQ : Within q 4096 a) : p = q := by
  unfold PageAligned at alignedP alignedQ
  unfold Within at inP inQ
  have boundP := p.isLt
  have boundQ := q.isLt
  exact BitVec.eq_of_toNat_eq (by bv_omega)

/-! ### Page tables -/

section Paging

variable {L : Bounds} {s t : Phys}

theorem walkStore_framed (tables : Tables L s root free) (addr : Word) {pte : Word} {s' : Phys}
    (walked : walk root addr true s = (pte, s')) (nonNull : pte ≠ 0) (raw : Word) :
    ∃ free', Framed L root s free { s' with mem := store64 s'.mem pte raw } free' := by
  obtain ⟨pte', s₁, free', walked', framed, outcome⟩ := walk_framed tables addr
  rw [walked] at walked'
  cases walked'
  rcases outcome with ⟨tbl, reached, rfl⟩ | ⟨null, -⟩
  · exact ⟨free', framed.trans (Framed.leaf_store framed.tables (pathOf_length addr) reached _ _)⟩
  · exact absurd null nonNull

theorem mapRegionPage_framed (tables : Tables L s root free) (pcd : Bool) (addr : Word) :
    ∃ free', Framed L root s free (mapRegionPage root pcd addr s) free' := by
  obtain ⟨pte, s', free', walked, framed, -⟩ := walk_framed tables addr
  by_cases null : pte = 0
  · refine ⟨free', ?_⟩
    rw [mapRegionPage, walked]
    dsimp only
    rw [if_pos null]
    exact framed
  · obtain ⟨free'', stored⟩ := walkStore_framed tables addr walked null _
    refine ⟨free'', ?_⟩
    rw [mapRegionPage, walked]
    dsimp only
    rw [if_neg null]
    exact stored

theorem mapRegion_framed (tables : Tables L s root free) {pcd : Bool} {base bound : Word}
    (done : mapRegion root pcd base bound s = .ok t) : ∃ free', Framed L root s free t free' := by
  refine forPages_keeps (fun t => ∃ free', Framed L root s free t free') ?_
    ⟨free, Framed.refl tables⟩ done
  rintro addr u u' ⟨free', framed⟩ step
  cases step
  obtain ⟨free'', more⟩ := mapRegionPage_framed framed.tables pcd addr
  exact ⟨free'', framed.trans more⟩

theorem kvminit_framed (tables : Tables L s root free) {start stop r : Word}
    (done : kvminit root start stop s = .ok (r, t)) : ∃ free', Framed L root s free t free' := by
  obtain ⟨t', ran, last⟩ := bind_ok done
  cases last
  refine forPages_keeps (fun t => ∃ free', Framed L root s free t free') ?_
    ⟨free, Framed.refl tables⟩ ran
  rintro addr u u' ⟨free', framed⟩ step
  rw [kvminitPage] at step
  dsimp only at step
  split at step
  · cases step
  · rename_i nonNull
    cases step
    obtain ⟨free'', more⟩ := walkStore_framed framed.tables addr rfl nonNull _
    exact ⟨free'', framed.trans more⟩

theorem SpaceCall.framed (tables : Tables L s root free) (call : SpaceCall) {result : Int}
    (done : call.exec root s = .ok (result, t)) : ∃ free', Framed L root s free t free' := by
  cases call with
  | mapPage va pa flags =>
    obtain ⟨free', framed⟩ := mapPage_framed tables va pa flags
    have same : (ShipOS.mapPage root va pa flags s).2 = t := congrArg Prod.snd (Except.ok.inj done)
    exact ⟨free', same ▸ framed⟩
  | mapPages va pa size flags => exact mapPagesLoop_framed _ _ _ _ _ _ s free result t tables done
  | unmapPage va =>
    cases done
    exact ⟨free, unmapPage_framed tables va⟩
  | unmapPages va size =>
    obtain ⟨t', ran, last⟩ := bind_ok done
    cases last
    exact unmapLoop_framed tables ran

/-- **Every call that maps or unmaps** writes to tables and free pages only. -/
theorem MappingCall.framed (tables : Tables L s root free) {call : MappingCall}
    (step : MappingStep root s call t) : ∃ free', Framed L root s free t free' := by
  cases call with
  | paging call =>
    cases call with
    | walk va =>
      cases step
      obtain ⟨pte, s', free', walked, framed, -⟩ := walk_framed tables va
      rw [walked]
      exact ⟨free', framed⟩
    | mapApicRegion apicBase size => exact mapRegion_framed tables step
    | mapLowMemory start size => exact mapRegion_framed tables step
    | space call =>
      obtain ⟨⟨result, t'⟩, ran, last⟩ := bind_ok step
      cases last
      exact call.framed tables ran
  | mapMmio pa size =>
    obtain ⟨⟨r, t'⟩, ran, last⟩ := bind_ok step
    cases last
    exact mapMmio_framed tables ran
  | kvminit start stop =>
    obtain ⟨⟨r, t'⟩, ran, last⟩ := bind_ok step
    cases last
    exact kvminit_framed tables ran

end Paging

/-- The pages of a list. -/
abbrev listed (free : List Word) : Set Word := {p | p ∈ free}

/-- A step of one subsystem of the kernel. -/
abbrev KernelExchange (L : Layout) (root : Word) (i : Subsystem) (R : Set Word) (free : List Word)
    (k k' : KernelState n) (free' : List Word) : Prop :=
  Exchange (kernelClient L root) (FreePages L) i R (listed free) k k' (listed free')

theorem exchange_mapping {call : MappingCall} (tables : TablesIn L root k R)
    (list : FreeList L k.phys free) (apart : ∀ p ∈ R, p ∉ free)
    (step : MappingStep root k.phys call phys) :
    ∃ free', KernelExchange L root .paging R free k { k with phys := phys } free' := by
  have tree := tables.pageTree list apart
  obtain ⟨free', framed⟩ := MappingCall.framed tree.toTables step
  have tree' := tree.grown framed.toGrown
  refine ⟨free', ⟨⟨⟨freeList_nil rfl, tree'.aligned, tree'.unique, fun _ _ _ _ => List.not_mem_nil⟩,
    tree'.nonNull⟩, fun q t within found => ⟨?_, tree'.notFree q t within found⟩⟩,
    ⟨free', tree'.list, fun _ => Iff.rfl⟩, fun p given => .inr (framed.mem_free given), ?_, ?_⟩
  · exact (framed.new q t within found).imp_left (tables.2 q t within)
  · intro p off notFree aligned a inside
    refine framed.frame a ⟨fun q t within found inT => off ?_, fun p' member inP => notFree ?_⟩
    · rw [page_unique aligned (tableAt_aligned tables.1.aligned found) inside inT]
      exact tables.2 q t within found
    · rw [page_unique aligned (list.page p' member).aligned inside inP]
      exact member
  · intro j other
    cases j with
    | paging => exact absurd rfl other
    | processes => exact ⟨rfl, rfl, rfl⟩
    | scheduler => exact ⟨rfl, rfl⟩
    | others => rfl

/-! ### Processes -/

/-- What a call on processes and lists has to show. -/
theorem exchange_of_heap {p : ProcKernel} {role : Word → Role} {nodes : ListVar → List (Word × Word)}
    (heap : ProcHeap L p role free' nodes) (procsIn : ∀ q ∈ p.procs, q ∈ R ∪ listed free)
    (nodesIn : ∀ v, ∀ x ∈ nodes v, x.1 ∈ R ∪ listed free)
    (back : ∀ q ∈ free', q ∈ R ∪ listed free) {ps : List Word}
    (only : OnlyPages ps k.phys.mem p.s.phys.mem) (aligned : ∀ q ∈ ps, PageAligned q)
    (own : ∀ q ∈ ps, q ∈ R ∪ listed free) :
    KernelExchange L root .processes R free k
      { k with phys := p.s.phys, procList := p.s.procList, currentPid := p.s.currentPid,
               procs := p.procs } free' := by
  refine ⟨⟨role, nodes, ⟨heap.lists, freeList_nil rfl, List.forall_mem_nil _, List.forall_mem_nil _,
    heap.pid⟩, fun q member => ⟨procsIn q member, fun given => ?_⟩,
    fun v x member => ⟨nodesIn v x member, fun given => ?_⟩⟩, ⟨free', heap.list, fun _ => Iff.rfl⟩,
    back,
    fun q off notFree => ?_, fun j other => ?_⟩
  · cases (heap.lists.process q member).1.symm.trans (heap.unused q given)
  · cases (heap.lists.node v x member).1.symm.trans (heap.unused x.1 given)
  · exact samePage_of_only _ _ only aligned fun member => (own q member).elim off notFree
  · cases j with
    | paging => trivial
    | processes => exact absurd rfl other
    | scheduler => exact ⟨rfl, rfl⟩
    | others => rfl

section Processes

variable {p : ProcKernel} {role : Word → Role} {nodes : ListVar → List (Word × Word)} {v : ListVar}

/-- A push writes to the new node, to those of the list, and to the variable of the list. -/
theorem push_only {f head item : Word} {phys : Phys} (heap : ProcHeap L p role (f :: free) nodes)
    (of : v.Of p.procs) (pushed : v.push (p.head v) item p.s.phys = .ok (head, phys)) :
    OnlyPages (f :: (nodes v).map Prod.fst ++ v.pages) p.s.phys.mem
      (p.setList v head phys).s.phys.mem := by
  have notFree : ∀ x ∈ nodes v, x.1 ∉ f :: free := by
    intro x member given
    cases (heap.lists.node v x member).1.symm.trans (heap.unused x.1 given)
  obtain ⟨head', phys', done, -, -, only⟩ := pushThreadList_spec item heap.list (heap.lists.queue v of)
    (heap.lists.nodePages v) notFree
  rw [v.push_eq, ProcKernel.head, done] at pushed
  cases pushed
  exact (only.mono (List.subset_append_left _ _)).trans
    (ListVar.store_only.mono (List.subset_append_right _ _))

theorem pop_only {x : Word × Word} {rest : List (Word × Word)} {item head : Word} {phys : Phys}
    (heap : ProcHeap L p role free nodes) (of : v.Of p.procs) (order : nodes v = x :: rest)
    (popped : v.pop L (p.head v) p.s.phys = .ok (item, head, phys)) :
    OnlyPages (x.1 :: v.pages) p.s.phys.mem (p.setList v head phys).s.phys.mem := by
  obtain ⟨roleX, page⟩ := heap.lists.node v x (order ▸ List.mem_cons_self)
  have notFree : x.1 ∉ free := fun inside => by
    cases roleX.symm.trans (heap.unused x.1 inside)
  have queue := heap.lists.queue v of
  rw [order] at queue
  obtain ⟨phys', done, -, only⟩ := popThreadList_spec heap.list queue page notFree
  have nonNull : p.head v ≠ 0 := ListVar.pop_ne_zero popped
  have same : v.pop L (p.head v) p.s.phys = popThreadList L (p.head v) p.s.phys := by
    cases v with
    | procList => rw [ListVar.pop, popProcList, if_neg nonNull]
    | threads proc => rfl
  rw [same, ProcKernel.head, done] at popped
  cases popped
  exact (only.pages List.mem_cons_self).trans
    (ListVar.store_only.mono fun q member => List.mem_cons_of_mem _ member)

theorem allocproc_only {q f made : Word} {s : Procs} (heap : ProcHeap L p role (q :: f :: free) nodes)
    (done : allocproc p.s = .ok (made, s)) :
    OnlyPages (q :: f :: (nodes .procList).map Prod.fst) p.s.phys.mem s.phys.mem := by
  have pageQ := heap.list.page q List.mem_cons_self
  obtain ⟨fresh, -⟩ := List.nodup_cons.mp heap.list.nodup
  obtain ⟨t, taken, list, only⟩ := kalloc_cons heap.list
  have first : OnlyPage q p.s.phys.mem (initProc t.mem q) := only.trans initProc_only
  have list₁ : FreeList L { t with mem := initProc t.mem q } (f :: free) :=
    list.other pageQ.aligned fresh initProc_only
  have notFree : ∀ x ∈ nodes .procList, x.1 ∉ q :: f :: free := by
    intro x member given
    cases (heap.lists.node _ x member).1.symm.trans (heap.unused x.1 given)
  have pages := heap.lists.nodePages .procList
  have queue : Queue (initProc t.mem q) p.s.procList (nodes .procList) := by
    refine Queue.others (heap.lists.queue .procList trivial) pages
      (List.forall_mem_singleton.mpr pageQ.aligned) (fun a node inside => ?_)
      (first.pages (List.mem_singleton_self q))
    obtain ⟨x, member, rfl⟩ := List.mem_map.mp node
    exact notFree x member (List.mem_singleton.mp inside ▸ List.mem_cons_self)
  obtain ⟨head, t', pushed, -, -, second⟩ := pushThreadList_spec q list₁ queue pages
    fun x member given => notFree x member (.tail q given)
  have ran : pushProcList p.s.procList q { t with mem := initProc t.mem q } = .ok (head, t') := pushed
  simp only [allocproc, taken, pageQ.ne_zero, if_false, generatePid] at done
  rw [ran] at done
  cases done
  exact (first.pages List.mem_cons_self).trans
    (second.mono fun a member => List.mem_cons_of_mem _ member)

end Processes

theorem mem_updated {nodes : ListVar → List (Word × Word)} {v w : ListVar} {q : List (Word × Word)}
    {x : Word × Word} (member : x ∈ Function.update nodes v q w) : x ∈ q ∨ x ∈ nodes w := by
  by_cases here : w = v
  · rw [here, Function.update_self] at member
    exact .inl member
  · rw [Function.update_of_ne here] at member
    exact .inr member

theorem exchange_process (root : Word) {call : ProcCall} {p : ProcKernel} (inv : ProcessesIn L k R)
    (list : FreeList L k.phys free) (apart : ∀ q ∈ R, q ∉ free) (lists : call.OnLists)
    (step : ProcStep L k.processes call p) :
    ∃ free', KernelExchange L root .processes R free k
      { k with phys := p.s.phys, procList := p.s.procList, currentPid := p.s.currentPid,
               procs := p.procs } free' := by
  obtain ⟨role, nodes, heap, procsIn, nodesIn⟩ := inv.heap list apart
  have nodeIn : ∀ v, ∀ q ∈ (nodes v).map Prod.fst, q ∈ R := by
    intro v q node
    obtain ⟨x, member, rfl⟩ := List.mem_map.mp node
    exact nodesIn v x member
  have alignedVar : ∀ v : ListVar, v.Of k.procs → ∀ q ∈ v.pages, PageAligned q ∧ q ∈ R := by
    intro v of q member
    refine ⟨(heap.lists.variable_process of q member).2.aligned, ?_⟩
    cases v with
    | procList => cases member
    | threads proc => exact procsIn q (List.mem_singleton.mp member ▸ of)
  obtain ⟨allowed, done⟩ := step
  cases call with
  | allocproc =>
    obtain ⟨⟨q, s⟩, made, same⟩ := bind_ok done
    cases same
    obtain ⟨q', f, rest, rfl⟩ := heap.allocproc_pages made
    obtain ⟨s', role', made', heap'⟩ := heap.allocproc
    have only := allocproc_only heap made
    rw [made] at made'
    cases made'
    refine ⟨rest, exchange_of_heap heap' (fun a member => ?_) (fun v x member => ?_)
      (fun a member => .inr (.tail _ (.tail _ member))) only ?_ ?_⟩
    · rcases List.mem_append.mp member with old | new
      · exact .inl (procsIn a old)
      · exact .inr (List.mem_singleton.mp new ▸ List.mem_cons_self)
    · rcases mem_updated member with pushed | others
      · rcases List.mem_append.mp pushed with old | new
        · exact .inl (nodesIn _ x old)
        · exact .inr (List.mem_singleton.mp new ▸ .tail _ List.mem_cons_self)
      · exact .inl (nodesIn v x ((mem_updated others).resolve_left List.not_mem_nil))
    · refine List.forall_mem_cons.mpr ⟨(list.page _ List.mem_cons_self).aligned,
        List.forall_mem_cons.mpr ⟨(list.page f (.tail _ List.mem_cons_self)).aligned, ?_⟩⟩
      exact (heap.lists.nodePages .procList).aligned
    · exact List.forall_mem_cons.mpr ⟨.inr List.mem_cons_self,
        List.forall_mem_cons.mpr ⟨.inr (.tail _ List.mem_cons_self),
          fun a node => .inl (nodeIn _ a node)⟩⟩
  | createThread startFunction argc args => exact absurd lists id
  | changeThreadState t newState => exact absurd lists id
  | push v item =>
    obtain ⟨⟨head, phys⟩, pushed, same⟩ := bind_ok done
    cases same
    rcases free with _ | ⟨f, rest⟩
    · rw [v.push_eq, pushThreadList_exhausted heap.list] at pushed
      cases pushed
    obtain ⟨head', phys', pushed', heap'⟩ := heap.push allowed.1 allowed.2
    have only := push_only heap allowed.1 pushed
    rw [pushed] at pushed'
    cases pushed'
    refine ⟨rest, exchange_of_heap heap' (fun a member => .inl (procsIn a member))
      (fun w x member => ?_)
      (fun a member => .inr (.tail f member)) only ?_ ?_⟩
    · rcases mem_updated member with new | old
      · rcases List.mem_append.mp new with old | last
        · exact .inl (nodesIn v x old)
        · exact .inr (List.mem_singleton.mp last ▸ List.mem_cons_self)
      · exact .inl (nodesIn w x old)
    · exact List.forall_mem_append.mpr ⟨List.forall_mem_cons.mpr
        ⟨(list.page f List.mem_cons_self).aligned, (heap.lists.nodePages v).aligned⟩,
        fun a member => (alignedVar v allowed.1 a member).1⟩
    · exact List.forall_mem_append.mpr ⟨List.forall_mem_cons.mpr
        ⟨.inr List.mem_cons_self, fun a node => .inl (nodeIn v a node)⟩,
        fun a member => .inl (alignedVar v allowed.1 a member).2⟩
  | pop v =>
    obtain ⟨⟨item, head, phys⟩, popped, same⟩ := bind_ok done
    cases same
    obtain ⟨x, rest, order⟩ := heap.nonempty allowed (ListVar.pop_ne_zero popped)
    obtain ⟨phys', popped', heap'⟩ := heap.pop allowed order
    have only := pop_only heap allowed order popped
    rw [popped] at popped'
    cases popped'
    have first : x ∈ nodes v := order ▸ List.mem_cons_self
    refine ⟨x.1 :: free, exchange_of_heap heap' (fun a member => .inl (procsIn a member))
      (fun w y member => ?_) ?_ only ?_ ?_⟩
    · exact .inl (nodesIn w y ((mem_updated member).resolve_left List.not_mem_nil))
    · exact List.forall_mem_cons.mpr ⟨.inl (nodesIn v x first), fun a member => .inr member⟩
    · exact List.forall_mem_cons.mpr ⟨(heap.lists.node v x first).2.aligned,
        fun a member => (alignedVar v allowed a member).1⟩
    · exact List.forall_mem_cons.mpr ⟨.inl (nodesIn v x first),
        fun a member => .inl (alignedVar v allowed a member).2⟩
  | shift v =>
    obtain ⟨head, shifted, same⟩ := bind_ok done
    cases same
    obtain ⟨x, rest, order⟩ := heap.nonempty allowed (ListVar.shift_ne_zero shifted)
    obtain ⟨head', shifted', heap'⟩ := heap.shift allowed order
    rw [shifted] at shifted'
    cases shifted'
    refine ⟨free, exchange_of_heap heap' (fun a member => .inl (procsIn a member))
      (fun w y member => ?_)
      (fun a member => .inr member) ListVar.store_only
      (fun a member => (alignedVar v allowed a member).1)
      fun a member => .inl (alignedVar v allowed a member).2⟩
    rcases mem_updated member with turned | old
    · refine .inl (nodesIn v y ?_)
      rw [order]
      exact (List.perm_append_singleton x rest).mem_iff.mp turned
    · exact .inl (nodesIn w y old)
  | peek v =>
    obtain ⟨_, -, same⟩ := bind_ok done
    cases same
    exact ⟨free, exchange_of_heap heap (fun a member => .inl (procsIn a member))
      (fun w y member => .inl (nodesIn w y member)) (fun a member => .inr member) (OnlyPages.refl [] _)
      (List.forall_mem_nil _) (List.forall_mem_nil _)⟩

/-! ### Threads and run queues -/

/-- What a call on threads and queues has to show. -/
theorem exchange_of_queues {threads : List Word} {s : Sched n}
    {nodes : Fin (n + 1) → List (Word × Word)} (queues : Queues L (· ∈ threads) s free' nodes)
    (current : CurrentHeld (· ∈ threads) s) (threadsIn : ∀ t ∈ threads, t ∈ R ∪ listed free)
    (nodesIn : ∀ c, ∀ x ∈ nodes c, x.1 ∈ R ∪ listed free) (back : ∀ p ∈ free', p ∈ R ∪ listed free)
    (frame : ∀ p, p ∉ R → p ∉ listed free → PageAligned p → SameOn p 4096 k.phys.mem s.phys.mem) :
    KernelExchange L root .scheduler R free k
      { k with phys := s.phys, cpus := s.cpus, threads := threads } free' := by
  obtain ⟨page, nodup, unique, queued, held⟩ := queues.occupancy
  refine ⟨⟨nodes, ⟨⟨fun c x member => ⟨(page c x member).1, List.not_mem_nil⟩, nodup, unique, queued,
    fun t made => ?_⟩, freeList_nil rfl, queues.queue, queues.count, queues.idleHeld, queues.notIdle⟩,
    current, fun t made => ⟨threadsIn t made, (held t made).2.1⟩,
    fun c x member => ⟨nodesIn c x member, (page c x member).2⟩⟩,
    ⟨free', queues.list, fun _ => Iff.rfl⟩,
    back, frame, fun j other => ?_⟩
  · obtain ⟨pageT, -, apart⟩ := held t made
    exact ⟨pageT, List.not_mem_nil, apart⟩
  · cases j with
    | paging => trivial
    | processes => exact ⟨rfl, rfl, rfl⟩
    | scheduler => exact absurd rfl other
    | others => rfl

theorem exchange_sched (root : Word) {call : SchedCall n} {s : Sched n} (inv : ThreadsIn L k R)
    (list : FreeList L k.phys free) (apart : ∀ p ∈ R, p ∉ free)
    (step : SchedStep L (· ∈ k.threads) k.sched call s) :
    ∃ free', KernelExchange L root .scheduler R free k { k with phys := s.phys, cpus := s.cpus }
      free' := by
  obtain ⟨nodes, queues, current, threadsIn, nodesIn⟩ := inv.queues list apart
  obtain ⟨free', nodes', moves⟩ := SchedCall.moves queues current step
  have pool : ∀ p, NodePool free nodes p → p ∈ R ∪ listed free := by
    rintro p (given | ⟨c, x, member, rfl⟩)
    · exact .inr given
    · exact .inl (nodesIn c x member)
  have alignedPool : ∀ p, NodePool free nodes p → PageAligned p := by
    rintro p (given | ⟨c, x, member, rfl⟩)
    · exact (list.page p given).aligned
    · exact (queues.occupancy.page c x member).1.aligned
  refine ⟨free', exchange_of_queues moves.queues (SchedCall.currentHeld queues current step)
    (fun t made => .inl (threadsIn t made)) (fun c x member => pool _ (moves.node c x member))
    (fun p given => pool p (moves.back p given)) fun p off notFree aligned a inside => ?_⟩
  refine moves.frame a (fun q there inQ => ?_) fun t made inT => ?_
  · rw [page_unique aligned (alignedPool q there) inside inQ] at off notFree
    exact (pool q there).elim off notFree
  · rw [page_unique aligned (queues.occupancy.apart t made).1.aligned inside inT] at off
    exact off (threadsIn t made)

/-- A new thread has three pages that were free. -/
theorem exchange_createThread (root : Word) {startFunction args thread : Word} {argc : BitVec 32}
    (inv : ThreadsIn L k R) (list : FreeList L k.phys free) (apart : ∀ p ∈ R, p ∉ free)
    (done : createThread startFunction argc args k.phys = .ok (thread, phys)) :
    ∃ free', KernelExchange L root .scheduler R free k
      { k with phys := phys, threads := k.threads ++ [thread] } free' := by
  obtain ⟨nodes, queues, current, threadsIn, nodesIn⟩ := inv.queues list apart
  obtain ⟨stack, kstack, rest, rfl, list', only, -⟩ := createThread_spec list done
  have aligned : ∀ p ∈ [thread, stack, kstack], PageAligned p := fun p member =>
    (list.page p (List.mem_append_left rest member)).aligned
  have newFree : ∀ p ∈ [thread, stack, kstack], p ∈ thread :: stack :: kstack :: rest := fun p member =>
    List.mem_append_left rest member
  have later : ∀ p ∈ rest, p ∈ thread :: stack :: kstack :: rest := fun p member =>
    List.mem_append_right [thread, stack, kstack] member
  have nodup₃ : ([thread, stack, kstack] ++ rest).Nodup := list.nodup
  have fresh : thread ∉ rest := List.disjoint_of_nodup_append nodup₃ List.mem_cons_self
  obtain ⟨page, nodup, unique, queued, held⟩ := queues.occupancy
  have queues' : Queues L (· ∈ k.threads ++ [thread]) ⟨phys, k.cpus⟩ rest nodes := by
    refine ⟨⟨fun c x member => ⟨(page c x member).1, fun given => (page c x member).2 (later _ given)⟩,
      nodup, unique, fun c x member => List.mem_append_left _ (queued c x member), fun t made => ?_⟩,
      list',
      fun c => ?_, queues.count, fun c => List.mem_append_left _ (queues.idleHeld c), queues.notIdle⟩
    · rcases List.mem_append.mp made with old | new
      · obtain ⟨pageT, notFree, other⟩ := held t old
        exact ⟨pageT, fun given => notFree (later t given), other⟩
      · rw [List.mem_singleton.mp new]
        refine ⟨list.page thread List.mem_cons_self, fresh, fun c x member same => ?_⟩
        exact (page c x member).2 (same ▸ List.mem_cons_self)
    · refine Queue.others (queues.queue c) (queues.pages c) aligned (fun p node inside => ?_) only
      obtain ⟨x, member, rfl⟩ := List.mem_map.mp node
      exact (page c x member).2 (newFree _ inside)
  refine ⟨rest, exchange_of_queues queues' (fun c => (current c).imp_right (List.mem_append_left _))
    (fun t made => ?_) (fun c x member => .inl (nodesIn c x member))
    (fun p given => .inr (later p given)) fun p off notFree =>
      samePage_of_only k { k with phys := phys } only aligned fun inside =>
        notFree (newFree p inside)⟩
  rcases List.mem_append.mp made with old | new
  · exact .inl (threadsIn t old)
  · exact .inr (List.mem_singleton.mp new ▸ List.mem_cons_self)

theorem exchange_changeThreadState {thread : Word} {newState : SchedState} (inv : ThreadsIn L k R)
    (list : FreeList L k.phys free) (apart : ∀ p ∈ R, p ∉ free) (made : thread ∈ k.threads) :
    KernelExchange L root .scheduler R free k
      { k with phys := { k.phys with mem := changeThreadState k.phys.mem thread newState } } free := by
  obtain ⟨nodes, queues, current, threadsIn, nodesIn⟩ := inv.queues list apart
  have only := changeThreadState_only k.phys.mem thread newState
  have page := (queues.occupancy.apart thread made).1
  refine exchange_of_queues (queues.write made only) current (fun t made => .inl (threadsIn t made))
    (fun c x member => .inl (nodesIn c x member)) (fun p given => .inr given) fun p off _ => ?_
  refine samePage_of_only k
    { k with phys := { k.phys with mem := changeThreadState k.phys.mem thread newState } }
    (only.pages (List.mem_singleton_self thread)) (List.forall_mem_singleton.mpr page.aligned) ?_
  exact fun same => off (List.mem_singleton.mp same ▸ threadsIn thread made)

/-! ### Other users of `kalloc` -/

/-- What another user has to show. -/
theorem exchange_of_pages (pages : List Word)
    (inv : PagesIn L { k with pages := pages } (R ∪ listed free))
    (list : FreeList L phys free') (mine : ∀ p ∈ pages, p ∉ free')
    (back : ∀ p ∈ free', p ∈ R ∪ listed free)
    (frame : ∀ p, p ∉ R → p ∉ listed free → PageAligned p → SameOn p 4096 k.phys.mem phys.mem) :
    KernelExchange L root .others R free k { k with phys := phys, pages := pages } free' := by
  refine ⟨⟨inv.nodup, inv.page, fun p member => ⟨inv.inside p member, mine p member⟩⟩,
    ⟨free', list, fun _ => Iff.rfl⟩, back, frame, fun j other => ?_⟩
  cases j with
  | paging => trivial
  | processes => exact ⟨rfl, rfl, rfl⟩
  | scheduler => exact ⟨rfl, rfl⟩
  | others => exact absurd rfl other

theorem exchange_kalloc (root : Word) {p : Word} (inv : PagesIn L k R) (list : FreeList L k.phys free)
    (apart : ∀ q ∈ R, q ∉ free) (done : kalloc k.phys = (p, phys)) :
    ∃ free', KernelExchange L root .others R free k
      { k with phys := phys, pages := if p = 0 then k.pages else p :: k.pages } free' := by
  have mine : ∀ q ∈ k.pages, q ∉ free := fun q member => apart q (inv.inside q member)
  rcases free with _ | ⟨f, rest⟩
  · rw [kalloc_nil list] at done
    cases done
    refine ⟨[], exchange_of_pages k.pages ?_ list mine (List.forall_mem_nil _)
      fun _ _ _ _ _ _ => rfl⟩
    exact ⟨inv.nodup, inv.page, fun q member => .inl (inv.inside q member)⟩
  · obtain ⟨t, taken, list', only⟩ := kalloc_cons list
    rw [taken] at done
    cases done
    have page := list.page p List.mem_cons_self
    rw [if_neg page.ne_zero]
    obtain ⟨fresh, -⟩ := List.nodup_cons.mp list.nodup
    refine ⟨rest, exchange_of_pages _ ⟨?_, ?_, ?_⟩ list' ?_ (fun q member => .inr (.tail p member))
      fun q _ notFree => ?_⟩
    · exact List.nodup_cons.mpr ⟨fun member => mine p member List.mem_cons_self, inv.nodup⟩
    · exact List.forall_mem_cons.mpr ⟨page, inv.page⟩
    · exact List.forall_mem_cons.mpr ⟨.inr List.mem_cons_self,
        fun q member => .inl (inv.inside q member)⟩
    · exact List.forall_mem_cons.mpr ⟨fresh, fun q member given => mine q member (.tail p given)⟩
    · refine samePage_of_only k { k with phys := phys }
        (only.pages (List.mem_singleton_self p)) (List.forall_mem_singleton.mpr page.aligned) ?_
      exact fun same => notFree (List.mem_singleton.mp same ▸ List.mem_cons_self)

theorem exchange_kfree (root : Word) {pa : Word} (inv : PagesIn L k R) (list : FreeList L k.phys free)
    (apart : ∀ q ∈ R, q ∉ free) (mine : pa ∈ k.pages) (done : kfree L pa k.phys = .ok phys) :
    ∃ free', KernelExchange L root .others R free k
      { k with phys := phys, pages := k.pages.erase pa } free' := by
  have page := inv.page pa mine
  obtain ⟨t, freed, list', only⟩ := kfree_ok list page (apart pa (inv.inside pa mine))
  rw [done] at freed
  cases freed
  have rest : ∀ q ∈ k.pages.erase pa, q ∈ k.pages := fun q member => List.mem_of_mem_erase member
  refine ⟨pa :: free, exchange_of_pages _ ⟨inv.nodup.erase pa,
    fun q member => inv.page q (rest q member),
    fun q member => .inl (inv.inside q (rest q member))⟩ list' (fun q member given => ?_) ?_
    fun q off _ => ?_⟩
  · rcases List.mem_cons.mp given with rfl | old
    · exact inv.nodup.not_mem_erase member
    · exact apart q (inv.inside q (rest q member)) old
  · exact List.forall_mem_cons.mpr ⟨.inl (inv.inside pa mine), fun q member => .inr member⟩
  · refine samePage_of_only k { k with phys := phys }
      (only.pages (List.mem_singleton_self pa)) (List.forall_mem_singleton.mpr page.aligned) ?_
    exact fun same => off (List.mem_singleton.mp same ▸ inv.inside pa mine)

theorem exchange_write {p addr : Word} {byte : Byte} (inv : PagesIn L k R)
    (list : FreeList L k.phys free) (apart : ∀ q ∈ R, q ∉ free) (mine : p ∈ k.pages)
    (inside : Within p 4096 addr) :
    KernelExchange L root .others R free k
      { k with phys := { k.phys with mem := Function.update k.phys.mem addr byte } } free := by
  have page := inv.page p mine
  have only : OnlyPage p k.phys.mem (Function.update k.phys.mem addr byte) := fun x outside =>
    Function.update_of_ne (fun same : x = addr => outside (by rw [same]; exact inside)) _ _
  have notFree : p ∉ free := apart p (inv.inside p mine)
  refine exchange_of_pages k.pages ⟨inv.nodup, inv.page, fun q member =>
    .inl (inv.inside q member)⟩ (list.other page.aligned notFree only)
    (fun q member => apart q (inv.inside q member)) (fun q member => .inr member) fun q off _ => ?_
  refine samePage_of_only k
    { k with phys := { k.phys with mem := Function.update k.phys.mem addr byte } }
    (only.pages (List.mem_singleton_self p)) (List.forall_mem_singleton.mpr page.aligned) ?_
  exact fun same => off (List.mem_singleton.mp same ▸ inv.inside p mine)

/-! ### Runs -/

/-- Every call is a step of its subsystem. -/
theorem KernelStep.exchange {held : Subsystem → Set Word} {F : Set Word} {call : KernelCall n}
    (shares : Shares (kernelClient L root) (FreePages L) k held F)
    (step : KernelStep L root k call k') :
    ∃ F', Exchange (kernelClient L root) (FreePages L) call.subsystem (held call.subsystem)
      F k k' F' := by
  obtain ⟨free, list, members⟩ := shares.list
  obtain rfl : F = listed free := Set.ext members
  have apart : ∀ i, ∀ p ∈ held i, p ∉ free := shares.notFree
  cases step with
  | mapping done =>
    obtain ⟨free', exchange⟩ := exchange_mapping (shares.inv .paging) list (apart .paging) done
    exact ⟨_, exchange⟩
  | process lists done =>
    obtain ⟨free', exchange⟩ := exchange_process root (shares.inv .processes) list
      (apart .processes) lists done
    exact ⟨_, exchange⟩
  | createThread done =>
    obtain ⟨free', exchange⟩ := exchange_createThread root (shares.inv .scheduler) list
      (apart .scheduler) done
    exact ⟨_, exchange⟩
  | changeThreadState made =>
    exact ⟨_, exchange_changeThreadState (shares.inv .scheduler) list (apart .scheduler) made⟩
  | sched done =>
    obtain ⟨free', exchange⟩ := exchange_sched root (shares.inv .scheduler) list
      (apart .scheduler) done
    exact ⟨_, exchange⟩
  | kalloc done =>
    obtain ⟨free', exchange⟩ := exchange_kalloc root (shares.inv .others) list (apart .others)
      done
    exact ⟨_, exchange⟩
  | kfree mine done =>
    obtain ⟨free', exchange⟩ := exchange_kfree root (shares.inv .others) list (apart .others)
      mine done
    exact ⟨_, exchange⟩
  | write mine inside =>
    exact ⟨_, exchange_write (shares.inv .others) list (apart .others) mine inside⟩

/-- The state before the first call: tables, and the idle threads of the CPUs. -/
structure FreshKernel (L : Layout) (root : Word) (k : KernelState n) (free : List Word) : Prop where
  tree : PageTree L k.phys root free
  queue : ∀ c, (k.cpus c).runQueue = 0
  count : ∀ c, (k.cpus c).numThreads = 0
  current : ∀ c, (k.cpus c).currentThread = 0
  idle : ∀ c, (k.cpus c).idleThread ∈ k.threads
  page : ∀ t ∈ k.threads, IsPage L t ∧ t ∉ free
  noTable : ∀ t ∈ k.threads, ∀ q : List (Fin 512), q.length ≤ 3 → tableAt k.phys.mem root q ≠ some t
  procList : k.procList = 0
  procs : k.procs = []
  pages : k.pages = []

/-- The pages that are tables. -/
def tablePages (mem : Mem) (root : Word) : Set Word :=
  {t | ∃ q : List (Fin 512), q.length ≤ 3 ∧ tableAt mem root q = some t}

/-- Who has which page at the start. -/
def firstHolders (root : Word) (k : KernelState n) : Subsystem → Set Word
  | .paging => tablePages k.phys.mem root
  | .scheduler => listed k.threads
  | _ => ∅

theorem FreshKernel.shares (fresh : FreshKernel L root k free) :
    Shares (kernelClient L root) (FreePages L) k (firstHolders root k) (listed free) := by
  have tree := fresh.tree
  refine ⟨fun i => ?_, ⟨free, tree.list, fun _ => Iff.rfl⟩, fun i j different p inI inJ => ?_,
    fun i p member given => ?_⟩
  · cases i with
    | paging =>
      exact ⟨⟨⟨freeList_nil rfl, tree.aligned, tree.unique, fun _ _ _ _ => List.not_mem_nil⟩,
        tree.nonNull⟩, fun q t within found => ⟨q, within, found⟩⟩
    | processes =>
      have noProcs : k.emptied.processes.procs = [] := fresh.procs
      refine ⟨fun _ => .other, fun _ => [], ⟨⟨?_, fun _ => List.forall_mem_nil _,
        fun _ => List.nodup_nil, fun v of => ?_, List.forall_mem_nil _⟩, freeList_nil rfl,
        List.forall_mem_nil _, List.forall_mem_nil _, ?_⟩, ?_, fun _ => List.forall_mem_nil _⟩
      · rw [noProcs]
        exact List.forall_mem_nil _
      · cases v with
        | procList => exact ⟨fresh.procList, IsRing.nil, List.forall_mem_nil _⟩
        | threads p =>
          rw [noProcs] at of
          cases of
      · rw [noProcs]
        exact List.forall_mem_nil _
      · rw [fresh.procs]
        exact List.forall_mem_nil _
    | scheduler =>
      refine ⟨fun _ => [], ⟨⟨fun _ => List.forall_mem_nil _, fun _ => List.nodup_nil,
        fun _ _ => List.forall_mem_nil _, fun _ => List.forall_mem_nil _, fun t made => ?_⟩,
        freeList_nil rfl, fun c => ⟨fresh.queue c, IsRing.nil, List.forall_mem_nil _⟩, fun c => ?_,
        fresh.idle, fun _ _ => List.forall_mem_nil _⟩, fun c => .inl (fresh.current c), fun _ => id,
        fun _ => List.forall_mem_nil _⟩
      · exact ⟨(fresh.page t made).1, List.not_mem_nil, fun _ => List.forall_mem_nil _⟩
      · exact congrArg BitVec.toNat (fresh.count c)
    | others =>
      refine ⟨?_, ?_, ?_⟩
      · rw [fresh.pages]
        exact List.nodup_nil
      · rw [fresh.pages]
        exact List.forall_mem_nil _
      · rw [fresh.pages]
        exact List.forall_mem_nil _
  · cases i with
    | paging =>
      cases j with
      | paging => exact different rfl
      | scheduler =>
        obtain ⟨q, within, found⟩ := inI
        exact fresh.noTable p inJ q within found
      | processes => exact inJ
      | others => exact inJ
    | scheduler =>
      cases j with
      | paging =>
        obtain ⟨q, within, found⟩ := inJ
        exact fresh.noTable p inI q within found
      | scheduler => exact different rfl
      | processes => exact inJ
      | others => exact inJ
    | processes => exact inI
    | others => exact inI
  · cases i with
    | paging =>
      obtain ⟨q, within, found⟩ := member
      exact tree.notFree q p within found given
    | scheduler => exact (fresh.page p member).2 given
    | processes => exact member
    | others => exact member

/-! ### What the other calls leave alone -/

/-- Every address is translated by the same entries. -/
def SpaceKept (root : Word) (s t : KernelState n) : Prop :=
  ∀ va, mmuEntries t.phys.mem root va = mmuEntries s.phys.mem root va

/-- The same processes are in the same lists. -/
structure ListsKept (s t : KernelState n) : Prop where
  procs : t.procs = s.procs
  lists : ∀ v : ListVar, v.Of s.procs → ∃ q, Queue s.phys.mem (v.get s.phys.mem s.procList) q ∧
    Queue t.phys.mem (v.get t.phys.mem t.procList) q

/-- The same threads, with the same records, are in the same queues and on the same CPUs. -/
structure ThreadsKept (s t : KernelState n) : Prop where
  cpus : t.cpus = s.cpus
  threads : t.threads = s.threads
  records : ∀ u ∈ s.threads, SameOn u 4096 s.phys.mem t.phys.mem
  queues : ∀ c, ∃ q, Queue s.phys.mem (s.cpus c).runQueue q ∧ Queue t.phys.mem (s.cpus c).runQueue q

structure PagesKept (s t : KernelState n) : Prop where
  pages : t.pages = s.pages
  contents : ∀ p ∈ s.pages, SameOn p 4096 s.phys.mem t.phys.mem

section Kept

variable {held : Subsystem → Set Word} {F R : Set Word}
  (shares : Shares (kernelClient L root) (FreePages L) s held F)

include shares

theorem spaceKept_of_unseen (unseen : Unseen (kernelClient L root) .paging s t (held .paging) R) :
    SpaceKept root s t := by
  have tables : TablesIn L root s (held .paging) := shares.inv .paging
  exact (tables.sameEntries unseen.same).mmuEntries

theorem listsKept_of_unseen
    (unseen : Unseen (kernelClient L root) .processes s t (held .processes) R) : ListsKept s t := by
  obtain ⟨role, nodes, heap, procsIn, nodesIn⟩ : ProcessesIn L s (held .processes) :=
    shares.inv .processes
  obtain ⟨procList, -, procs⟩ : SameProcRegs s t := unseen.regs
  refine ⟨procs, fun v of => ⟨nodes v, heap.lists.queue v of, ?_⟩⟩
  rw [procList, ListVar.get_samePages of (fun p member => (heap.lists.process p member).2)
    fun p member => unseen.same p (procsIn p member)]
  exact Queue.samePages (heap.lists.queue v of) (heap.lists.nodePages v)
    fun x member => unseen.same x.1 (nodesIn v x member)

theorem threadsKept_of_unseen
    (unseen : Unseen (kernelClient L root) .scheduler s t (held .scheduler) R) : ThreadsKept s t := by
  obtain ⟨nodes, queues, -, threadsIn, nodesIn⟩ : ThreadsIn L s (held .scheduler) :=
    shares.inv .scheduler
  obtain ⟨cpus, threads⟩ : SameSchedRegs s t := unseen.regs
  refine ⟨cpus, threads, fun u made => ?_, fun c => ⟨nodes c, queues.queue c, ?_⟩⟩
  · exact unseen.same u (threadsIn u made) (queues.occupancy.apart u made).1.aligned
  · exact Queue.samePages (queues.queue c) (queues.pages c)
      fun x member => unseen.same x.1 (nodesIn c x member)

theorem pagesKept_of_unseen (unseen : Unseen (kernelClient L root) .others s t (held .others) R) :
    PagesKept s t := by
  have inv : PagesIn L s (held .others) := shares.inv .others
  exact ⟨unseen.regs, fun p member => unseen.same p (inv.inside p member) (inv.page p member).aligned⟩

end Kept

/-- **The subsystems share the pages and do not disturb each other.** From a fresh kernel, after any
calls: each page that was free, a table or a thread at the start is in exactly one hand or free; and
any further calls leave alone what belongs to a subsystem that makes none of them. -/
theorem kernel_sharing (fresh : FreshKernel L root k free) {es fs : List (KernelCall n)}
    (before : Run (KernelStep L root) k es s) (later : Run (KernelStep L root) s fs t) :
    (∃ held F, Shares (kernelClient L root) (FreePages L) t held F ∧
      ∀ p, (∃ i, p ∈ held i) ∨ p ∈ F ↔
        p ∈ tablePages k.phys.mem root ∨ p ∈ k.threads ∨ p ∈ free) ∧
    ((∀ call ∈ fs, call.subsystem ≠ .paging) → SpaceKept root s t) ∧
    ((∀ call ∈ fs, call.subsystem ≠ .processes) → ListsKept s t) ∧
    ((∀ call ∈ fs, call.subsystem ≠ .scheduler) → ThreadsKept s t) ∧
    ((∀ call ∈ fs, call.subsystem ≠ .others) → PagesKept s t) := by
  have still : ∀ p (k : KernelState n), SamePage p k k := fun _ _ _ _ _ => rfl
  have chain : ∀ {p} {k₁ k₂ k₃ : KernelState n}, SamePage p k₁ k₂ → SamePage p k₂ k₃ →
      SamePage p k₁ k₃ := fun first second aligned => (first aligned).trans (second aligned)
  obtain ⟨held, F, shares, pages, -⟩ :=
    fresh.shares.run still chain (fun shares step => KernelStep.exchange shares step) before
  obtain ⟨held', F', shares', pages', unseen⟩ :=
    shares.run still chain (fun shares step => KernelStep.exchange shares step) later
  refine ⟨⟨held', F', shares', fun p => (pages' p).trans ((pages p).trans ?_)⟩,
    fun absent => spaceKept_of_unseen shares (unseen .paging absent),
    fun absent => listsKept_of_unseen shares (unseen .processes absent),
    fun absent => threadsKept_of_unseen shares (unseen .scheduler absent),
    fun absent => pagesKept_of_unseen shares (unseen .others absent)⟩
  constructor
  · rintro (⟨i, member⟩ | unused)
    · cases i with
      | paging => exact .inl member
      | scheduler => exact .inr (.inl member)
      | processes => exact absurd member (Set.notMem_empty p)
      | others => exact absurd member (Set.notMem_empty p)
    · exact .inr (.inr unused)
  · rintro (table | thread | unused)
    · exact .inl ⟨.paging, table⟩
    · exact .inl ⟨.scheduler, thread⟩
    · exact .inr unused

/-- One CPU, whose idle thread is the page above the free ones. -/
def demoKernel : KernelState 0 where
  phys := demoPhys
  cpus _ := ⟨0, 0x203000, 0, 0, true⟩
  threads := [0x203000]
  procList := 0
  currentPid := 0
  procs := []
  pages := []

theorem demoKernel_fresh :
    FreshKernel demoLayout demoRoot demoKernel [0x200000, 0x201000, 0x202000] where
  tree := demoPhys_tree
  queue _ := rfl
  count _ := rfl
  current _ := rfl
  idle _ := List.mem_singleton_self _
  page := List.forall_mem_singleton.mpr ⟨by decide, by decide⟩
  noTable := by
    refine List.forall_mem_singleton.mpr fun q _ found => ?_
    obtain ⟨-, same⟩ := tableAt_of_empty demoPhys_empty found
    exact absurd same (by decide)
  procList := rfl
  procs := rfl
  pages := rfl

/-- A page is taken, and then the state of a thread changes. -/
theorem kernel_sharing_kalloc :
    ∃ s t, Run (KernelStep demoLayout demoRoot) demoKernel [.kalloc] s ∧
      Run (KernelStep demoLayout demoRoot) s [.changeThreadState 0x203000 .onCpu] t ∧
      s.pages = [0x200000] ∧ PagesKept s t ∧ SpaceKept demoRoot s t := by
  obtain ⟨phys, taken, -, -⟩ := kalloc_cons demoPhys_list
  let mid : KernelState 0 := { demoKernel with phys := phys, pages := [0x200000] }
  have first : Run (KernelStep demoLayout demoRoot) demoKernel [.kalloc] mid :=
    .cons (.kalloc taken) (.nil _)
  have second : Run (KernelStep demoLayout demoRoot) mid [.changeThreadState 0x203000 .onCpu]
      { mid with phys := { phys with mem := changeThreadState phys.mem 0x203000 .onCpu } } :=
    .cons (.changeThreadState (List.mem_singleton_self 0x203000)) (.nil _)
  obtain ⟨-, space, -, -, pages⟩ := kernel_sharing demoKernel_fresh first second
  refine ⟨_, _, first, second, rfl, pages ?_, space ?_⟩
  · exact List.forall_mem_singleton.mpr (by decide)
  · exact List.forall_mem_singleton.mpr (by decide)

end ShipOS
