/-
**Thread lists (`threads.c`).**

A `thread_node` is a page of the allocator with the fields `data`, `next`, `prev` in its first three
words; a list is the address of one node of a circular doubly linked ring, or null. `Queue mem head q`
says that `head` is such a list with the nodes and threads `q`, in order.

* `pushThreadList_spec` — a push appends the thread, in a node from the free list;
* `removeNode_spec` — the removal of a node, wherever it is in the ring, takes it out of the order
  and frees its page;
* `popThreadList_spec` — a pop returns the first thread and leaves the **empty** list, whatever else
  was queued.
-/

import ShipOS.Lib.Pointers
import ShipOS.Memory.Kalloc

namespace ShipOS

open ByteMem Ring

/-! ### Threads and nodes -/

/-- `enum sched_states`. -/
inductive SchedState
  | new
  | runnable
  | onCpu
  | wait
  | exit
  | unused
  deriving DecidableEq, Repr

def SchedState.raw : SchedState → BitVec 32
  | .new => 0
  | .runnable => 1
  | .onCpu => 2
  | .wait => 3
  | .exit => 4
  | .unused => 5

/-- `&thread->state`, after the six words of the other fields. -/
def stateAddr (thread : Word) : Word := thread + BitVec.ofNat 64 48

def threadState (mem : Mem) (thread : Word) : BitVec 32 := load32 mem (stateAddr thread)

def changeThreadState (mem : Mem) (thread : Word) (newState : SchedState) : Mem :=
  store32 mem (stateAddr thread) newState.raw

def nodeData (mem : Mem) (node : Word) : Word := load64 mem (slot node 0)

def nodeNext (mem : Mem) (node : Word) : Word := load64 mem (slot node 1)

def nodePrev (mem : Mem) (node : Word) : Word := load64 mem (slot node 2)

/-- The stores of `push_thread_list` for the first node of a list. -/
def aloneNode (mem : Mem) (newNode thread : Word) : Mem :=
  let mem := store64 mem (slot newNode 0) thread
  let mem := store64 mem (slot newNode 2) newNode
  store64 mem (slot newNode 1) newNode

/-- The stores of `push_thread_list` for a node before the head `list`. -/
def lastNode (mem : Mem) (newNode thread list : Word) : Mem :=
  let mem := store64 mem (slot newNode 0) thread
  let mem := store64 mem (slot newNode 1) list
  let mem := store64 mem (slot newNode 2) (nodePrev mem list)
  let mem := store64 mem (slot (nodePrev mem list) 1) newNode
  store64 mem (slot list 2) newNode

def pushThreadList (list thread : Word) (s : Phys) : Except Halt (Word × Phys) :=
  let (newNode, s) := kalloc s
  -- The C code stores into the page without checking that there is one.
  if newNode = 0 then .error .nullStore
  else if list ≠ 0 then .ok (list, { s with mem := lastNode s.mem newNode thread list })
  else .ok (newNode, { s with mem := aloneNode s.mem newNode thread })

/-- A node that is not alone, taken out of its ring. -/
def unlink (mem : Mem) (current : Word) : Mem :=
  let mem := store64 mem (slot (nodePrev mem current) 1) (nodeNext mem current)
  store64 mem (slot (nodeNext mem current) 2) (nodePrev mem current)

/-- A node found in the list `list`, removed and freed; the result is the list after it. -/
def removeNode (L : Layout) (list current : Word) (s : Phys) : Except Halt (Word × Phys) :=
  if nodeNext s.mem current = current then do
    let s ← kfree L current s
    .ok (0, s)
  else do
    let mem := unlink s.mem current
    let list := if list = current then nodeNext mem current else list
    let s ← kfree L current { s with mem := mem }
    .ok (list, s)

/-- `pop_thread_list`. Its condition is the assignment `(*list)->next = (*list)`: the head becomes its
own successor, and the value tested is the address of the head. -/
def popThreadList (L : Layout) (list : Word) (s : Phys) : Except Halt (Word × Word × Phys) :=
  if list = 0 then .error (.panic "Empty thread list while popping\n")
  else
    let t := nodeData s.mem list
    let mem := store64 s.mem (slot list 1) list
    if list ≠ 0 then do
      let s ← kfree L list { s with mem := mem }
      .ok (t, 0, s)
    else do
      let s ← kfree L list { s with mem := unlink mem list }
      .ok (t, list, s)

/-! ### Fields after a store -/

variable {p x : Word} {i j : Nat}

/-- A word of a page after a store into a word of a page. -/
theorem load64_store64_slot (mem : Mem) (v : Word) (alignedP : PageAligned p)
    (alignedX : PageAligned x) (hi : i < 512) (hj : j < 512) :
    load64 (store64 mem (slot p i) v) (slot x j) =
      if p = x ∧ i = j then v else load64 mem (slot x j) := by
  by_cases here : p = x ∧ i = j
  · obtain ⟨rfl, rfl⟩ := here
    rw [if_pos ⟨rfl, rfl⟩, load64_store64_self]
  · rw [if_neg here]
    exact load64_store64_apart _ _ (apart_slot alignedP alignedX hi hj here)

section Stores

variable (mem : Mem) (v : Word) (alignedP : PageAligned p) (alignedX : PageAligned x)

include alignedP alignedX

theorem nodeData_store (hi : i < 3) : nodeData (store64 mem (slot p i) v) x =
    if p = x ∧ i = 0 then v else nodeData mem x :=
  load64_store64_slot mem v alignedP alignedX (by omega) (by omega)

theorem nodeNext_store (hi : i < 3) : nodeNext (store64 mem (slot p i) v) x =
    if p = x ∧ i = 1 then v else nodeNext mem x :=
  load64_store64_slot mem v alignedP alignedX (by omega) (by omega)

theorem nodePrev_store (hi : i < 3) : nodePrev (store64 mem (slot p i) v) x =
    if p = x ∧ i = 2 then v else nodePrev mem x :=
  load64_store64_slot mem v alignedP alignedX (by omega) (by omega)

end Stores

/-! ### A list in memory -/

/-- The address a list of nodes is passed by. -/
def listHead (nodes : List Word) : Word := nodes.head?.getD 0

/-- **A thread list**: the nodes, with their threads, in order from the head. -/
structure Queue (mem : Mem) (head : Word) (q : List (Word × Word)) : Prop where
  head_eq : head = listHead (q.map Prod.fst)
  ring : IsRing (nodeNext mem) (nodePrev mem) (q.map Prod.fst)
  data : ∀ x ∈ q, nodeData mem x.1 = x.2

variable {L : Layout} {s : Phys} {free : List Word} {mem mem' : Mem} {head : Word}
  {q : List (Word × Word)}

/-- Pages of nodes: aligned, distinct. -/
structure NodePages (L : Layout) (q : List (Word × Word)) : Prop where
  page : ∀ x ∈ q, IsPage L x.1
  nodup : (q.map Prod.fst).Nodup

theorem NodePages.aligned (pages : NodePages L q) : ∀ p ∈ q.map Prod.fst, PageAligned p := by
  intro p member
  obtain ⟨x, inside, rfl⟩ := List.mem_map.mp member
  exact (pages.page x inside).aligned

theorem NodePages.sublist {q' : List (Word × Word)} (pages : NodePages L q) (sub : q'.Sublist q) :
    NodePages L q' :=
  ⟨fun x member => pages.page x (sub.subset member), pages.nodup.sublist (sub.map Prod.fst)⟩

/-- A list does not read other pages. -/
theorem Queue.others {ps : List Word} (queue : Queue mem head q) (pages : NodePages L q)
    (aligned : ∀ p ∈ ps, PageAligned p) (apart : ∀ p ∈ q.map Prod.fst, p ∉ ps)
    (only : OnlyPages ps mem mem') : Queue mem' head q := by
  refine ⟨queue.head_eq, queue.ring.frame ?_ ?_, ?_⟩
  · exact fun p member =>
      only.load64 aligned (pages.aligned p member) (apart p member) (by omega)
  · exact fun p member =>
      only.load64 aligned (pages.aligned p member) (apart p member) (by omega)
  · intro x member
    have inside := List.mem_map_of_mem (f := Prod.fst) member
    rw [← queue.data x member]
    exact only.load64 aligned (pages.aligned _ inside) (apart _ inside) (by omega)

section Push

variable (mem : Mem) {f h : Word} (t : Word)

theorem aloneNode_only : OnlyPage f mem (aloneNode mem f t) :=
  ((onlyPage_store mem 0 t (by omega)).trans (onlyPage_store _ 2 f (by omega))).trans
    (onlyPage_store _ 1 f (by omega))

variable (alignedF : PageAligned f)

include alignedF

theorem aloneNode_queue : Queue (aloneNode mem f t) f [(f, t)] := by
  refine ⟨rfl, (isRing_singleton f).mpr ⟨?_, ?_⟩, fun x member => ?_⟩
  · simp [-slot_zero, aloneNode, nodeNext_store, alignedF]
  · simp [-slot_zero, aloneNode, nodePrev_store, alignedF]
  · rw [List.mem_singleton] at member
    subst member
    simp [-slot_zero, aloneNode, nodeData_store, alignedF]

variable (alignedH : PageAligned h) (different : f ≠ h)

include alignedH different

theorem lastNode_only : OnlyPages [f, h, nodePrev mem h] mem (lastNode mem f t h) := by
  have z₁ : nodePrev (store64 (store64 mem (slot f 0) t) (slot f 1) h) h = nodePrev mem h := by
    simp [-slot_zero, nodePrev_store, alignedF, alignedH]
  have z₂ : nodePrev (store64 (store64 (store64 mem (slot f 0) t) (slot f 1) h) (slot f 2)
      (nodePrev mem h)) h = nodePrev mem h := by
    simp [-slot_zero, nodePrev_store, alignedF, alignedH, different]
  unfold lastNode
  simp only [z₁, z₂]
  exact (((((OnlyPages.refl _ mem).store (by omega) (by simp)).store (by omega) (by simp)).store
    (by omega) (by simp)).store (by omega) (by simp)).store (by omega) (by simp)

/-- The fields of any node after the push: the four links around the new node, and its data. -/
theorem lastNode_fields (alignedZ : PageAligned (nodePrev mem h)) {x : Word}
    (alignedX : PageAligned x) :
    nodeNext (lastNode mem f t h) x =
        (if nodePrev mem h = x then f else if f = x then h else nodeNext mem x) ∧
      nodePrev (lastNode mem f t h) x =
        (if h = x then f else if f = x then nodePrev mem h else nodePrev mem x) ∧
      nodeData (lastNode mem f t h) x = if f = x then t else nodeData mem x := by
  simp [-slot_zero, lastNode, nodeNext_store, nodePrev_store, nodeData_store, alignedF, alignedH,
    alignedZ, alignedX, different]

end Push

/-- A node before the head of a list is its last node. -/
theorem lastNode_queue {f t t₀ : Word} {rest : List (Word × Word)}
    (queue : Queue mem head ((head, t₀) :: rest)) (pages : NodePages L ((head, t₀) :: rest))
    (alignedF : PageAligned f) (fresh : f ∉ ((head, t₀) :: rest).map Prod.fst) :
    Queue (lastNode mem f t head) head ((head, t₀) :: rest ++ [(f, t)]) ∧
      OnlyPages (f :: ((head, t₀) :: rest).map Prod.fst) mem (lastNode mem f t head) := by
  have last := queue.ring.prev_mem
  have alignedH := pages.aligned head List.mem_cons_self
  have alignedZ := pages.aligned _ last
  have notNode : ∀ p ∈ ((head, t₀) :: rest).map Prod.fst, f ≠ p := fun p member same =>
    fresh (same ▸ member)
  have different := notNode head List.mem_cons_self
  have fields := fun x => lastNode_fields mem t alignedF alignedH different alignedZ (x := x)
  refine ⟨⟨rfl, ?_, ?_⟩, (lastNode_only mem t alignedF alignedH different).mono ?_⟩
  · rw [List.map_append]
    refine queue.ring.push pages.nodup ?_ ?_ ?_ ?_ ?_ ?_
    · rw [(fields f alignedF).1, if_neg (notNode _ last).symm, if_pos rfl]
    · rw [(fields f alignedF).2.1, if_neg different.symm, if_pos rfl]
    · rw [(fields _ alignedZ).1, if_pos rfl]
    · rw [(fields head alignedH).2.1, if_pos rfl]
    · intro a member other
      rw [(fields a (pages.aligned a member)).1, if_neg other.symm, if_neg (notNode a member)]
    · intro b member other
      rw [(fields b (pages.aligned b member)).2.1, if_neg other.symm, if_neg (notNode b member)]
  · intro x member
    rcases List.mem_append.mp member with old | new
    · have inside := List.mem_map_of_mem (f := Prod.fst) old
      rw [(fields x.1 (pages.aligned _ inside)).2.2, if_neg (notNode _ inside)]
      exact queue.data x old
    · rw [List.mem_singleton] at new
      subst new
      rw [(fields f alignedF).2.2, if_pos rfl]
  · intro p member
    simp only [List.mem_cons, List.not_mem_nil, or_false] at member
    rcases member with rfl | rfl | rfl
    · exact List.mem_cons_self
    · exact List.mem_cons_of_mem _ List.mem_cons_self
    · exact List.mem_cons_of_mem _ last

/-- Without a free page a push stores through null. -/
theorem pushThreadList_exhausted (list : FreeList L s []) (thread : Word) :
    pushThreadList head thread s = .error .nullStore := by
  rw [pushThreadList, kalloc_nil list]
  rfl

/-- **A push appends the thread**, in a node from the free list. -/
theorem pushThreadList_spec (thread : Word) {f : Word} (list : FreeList L s (f :: free))
    (queue : Queue s.mem head q) (pages : NodePages L q) (apart : ∀ x ∈ q, x.1 ∉ f :: free) :
    ∃ head' t, pushThreadList head thread s = .ok (head', t) ∧ FreeList L t free ∧
      Queue t.mem head' (q ++ [(f, thread)]) ∧ OnlyPages (f :: q.map Prod.fst) s.mem t.mem := by
  have pageF := list.page f List.mem_cons_self
  have notFree := (List.nodup_cons.mp list.nodup).1
  obtain ⟨s₁, taken, list₁, only⟩ := kalloc_cons list
  rw [pushThreadList, taken]
  simp only [pageF.ne_zero, if_false]
  rcases q with _ | ⟨⟨h, t₀⟩, rest⟩
  · have empty : head = 0 := queue.head_eq
    simp only [empty, ne_eq, not_true_eq_false, if_false]
    have stores := aloneNode_only s₁.mem (f := f) thread
    exact ⟨_, _, rfl, list₁.other pageF.aligned notFree stores,
      aloneNode_queue s₁.mem thread pageF.aligned, (only.trans stores).pages List.mem_cons_self⟩
  · have first : head = h := queue.head_eq
    have nonNull : h ≠ 0 := (pages.page _ List.mem_cons_self).ne_zero
    subst first
    simp only [ne_eq, nonNull, not_false_eq_true, if_true]
    have notNode : ∀ p ∈ ((head, t₀) :: rest).map Prod.fst, p ∉ f :: free := by
      intro p member
      obtain ⟨x, inside, rfl⟩ := List.mem_map.mp member
      exact apart x inside
    have kept := queue.others pages (List.forall_mem_singleton.mpr pageF.aligned)
      (fun p member same => notNode p member (by simpa using .inl (List.mem_singleton.mp same)))
      (only.pages List.mem_cons_self)
    obtain ⟨pushed, stores⟩ := lastNode_queue (t := thread) kept pages pageF.aligned
      fun member => notNode f member List.mem_cons_self
    refine ⟨head, _, rfl, list₁.others ?_ ?_ stores, pushed,
      (only.pages List.mem_cons_self).trans stores⟩
    · exact List.forall_mem_cons.mpr ⟨pageF.aligned, pages.aligned⟩
    · intro p member inside
      rcases List.mem_cons.mp inside with rfl | node
      · exact notFree member
      · exact notNode p node (List.mem_cons_of_mem _ member)

section Unlink

variable {c : Word} (alignedC : PageAligned c) (alignedNext : PageAligned (nodeNext mem c))
  (alignedPrev : PageAligned (nodePrev mem c)) (other : nodePrev mem c ≠ c)

include alignedC alignedPrev other

theorem unlink_eq : unlink mem c = store64 (store64 mem (slot (nodePrev mem c) 1) (nodeNext mem c))
    (slot (nodeNext mem c) 2) (nodePrev mem c) := by
  simp [unlink, nodeNext_store, nodePrev_store, alignedC, alignedPrev, other]

theorem unlink_only :
    OnlyPages [nodePrev mem c, nodeNext mem c] mem (unlink mem c) := by
  rw [unlink_eq alignedC alignedPrev other]
  exact ((OnlyPages.refl _ mem).store (by omega) (by simp)).store (by omega) (by simp)

include alignedNext

/-- The fields of any node after the unlinking: two links change. -/
theorem unlink_fields {x : Word} (alignedX : PageAligned x) :
    nodeNext (unlink mem c) x = (if nodePrev mem c = x then nodeNext mem c else nodeNext mem x) ∧
      nodePrev (unlink mem c) x =
        (if nodeNext mem c = x then nodePrev mem c else nodePrev mem x) ∧
      nodeData (unlink mem c) x = nodeData mem x := by
  rw [unlink_eq alignedC alignedPrev other]
  simp [nodeNext_store, nodePrev_store, nodeData_store, alignedNext, alignedPrev, alignedX]

end Unlink

section Remove

variable {c t : Word} {pre post : List (Word × Word)}

theorem removed_sublist (pre post : List (Word × Word)) (x : Word × Word) :
    (pre ++ post).Sublist (pre ++ x :: post) :=
  (List.sublist_cons_self x post).append_left pre

/-- The rest of a list, read from the node after `c`. -/
theorem Queue.ring_from (queue : Queue mem head (pre ++ (c, t) :: post)) :
    IsRing (nodeNext mem) (nodePrev mem) (c :: (post ++ pre).map Prod.fst) := by
  have ring := queue.ring
  rw [List.map_append, List.map_cons] at ring
  have turned := ring.rotate
  rwa [List.cons_append, ← List.map_append] at turned

theorem NodePages.nodup_from (pages : NodePages L (pre ++ (c, t) :: post)) :
    (c :: (post ++ pre).map Prod.fst).Nodup := by
  have nodup := pages.nodup
  rw [List.map_append, List.map_cons] at nodup
  rw [List.map_append, ← List.cons_append]
  exact List.nodup_append_comm.mp nodup

/-- **A node unlinked from its ring**, the list not empty after it. -/
theorem unlink_queue (queue : Queue mem head (pre ++ (c, t) :: post))
    (pages : NodePages L (pre ++ (c, t) :: post)) (more : post ++ pre ≠ []) :
    Queue (unlink mem c) (if head = c then nodeNext (unlink mem c) c else head) (pre ++ post) ∧
      OnlyPages ((pre ++ (c, t) :: post).map Prod.fst) mem (unlink mem c) ∧ nodeNext mem c ≠ c := by
  have ring := queue.ring_from
  have nodup := pages.nodup_from
  have inside : ∀ p ∈ c :: (post ++ pre).map Prod.fst,
      p ∈ (pre ++ (c, t) :: post).map Prod.fst := by
    intro p member
    simp only [List.map_append, List.map_cons, List.mem_append, List.mem_cons] at member ⊢
    tauto
  obtain ⟨⟨y, ty⟩, r, rest⟩ := List.exists_cons_of_ne_nil more
  rw [rest, List.map_cons] at ring nodup inside
  obtain ⟨notLater, nodupRest⟩ := List.nodup_cons.mp nodup
  have next : nodeNext mem c = y := (List.isChain_cons_cons.mp ring.chain).1.1
  have last : nodePrev mem c ∈ y :: r.map Prod.fst := by
    rw [ring.prev_head, List.getLast_cons (List.cons_ne_nil _ _)]
    exact List.getLast_mem _
  have memberNext : nodeNext mem c ∈ y :: r.map Prod.fst := by
    rw [next]
    exact List.mem_cons_self
  have otherPrev : nodePrev mem c ≠ c := fun same => notLater (same ▸ last)
  have otherNext : nodeNext mem c ≠ c := fun same => notLater (same ▸ memberNext)
  have aligned := fun p member => pages.aligned p (inside p member)
  have alignedC := aligned c List.mem_cons_self
  have alignedPrev := aligned _ (List.mem_cons_of_mem c last)
  have fields := fun x => unlink_fields alignedC (aligned _ (List.mem_cons_of_mem c memberNext))
    alignedPrev otherPrev (x := x)
  refine ⟨⟨?_, ?_, ?_⟩, ?_, otherNext⟩
  · rw [(fields c alignedC).1, if_neg otherPrev, queue.head_eq]
    rcases pre with _ | ⟨⟨x, tx⟩, pre⟩
    · rw [List.append_nil] at rest
      subst rest
      exact (if_pos rfl).trans next
    · refine if_neg fun same => ?_
      have nodup' := pages.nodup
      rw [List.cons_append, List.map_cons, List.nodup_cons] at nodup'
      refine nodup'.1 ?_
      rw [show x = c from same, List.map_append, List.map_cons]
      exact List.mem_append_right _ List.mem_cons_self
  · rw [List.map_append]
    refine IsRing.rotate ?_
    rw [← List.map_append, rest, List.map_cons]
    refine ring.remove_head nodupRest ?_ ?_ ?_ ?_
    · rw [(fields _ alignedPrev).1, if_pos rfl]
    · rw [(fields _ (aligned _ (List.mem_cons_of_mem c memberNext))).2.1, if_pos rfl]
    · intro a member other
      rw [(fields a (aligned a (List.mem_cons_of_mem c member))).1, if_neg other.symm]
    · intro b member other
      rw [(fields b (aligned b (List.mem_cons_of_mem c member))).2.1, if_neg other.symm]
  · intro x member
    have node := (removed_sublist pre post (c, t)).subset member
    rw [(fields x.1 (pages.page x node).aligned).2.2]
    exact queue.data x node
  · refine (unlink_only alignedC alignedPrev otherPrev).mono ?_
    intro p member
    simp only [List.mem_cons, List.not_mem_nil, or_false] at member
    rcases member with rfl | rfl
    · exact inside _ (List.mem_cons_of_mem c last)
    · exact inside _ (List.mem_cons_of_mem c memberNext)

/-- **A node removed from a list**, its page freed. -/
theorem removeNode_spec (list : FreeList L s free)
    (queue : Queue s.mem head (pre ++ (c, t) :: post))
    (pages : NodePages L (pre ++ (c, t) :: post))
    (apart : ∀ x ∈ pre ++ (c, t) :: post, x.1 ∉ free) :
    ∃ head' u, removeNode L head c s = .ok (head', u) ∧ FreeList L u (c :: free) ∧
      Queue u.mem head' (pre ++ post) ∧
      OnlyPages ((pre ++ (c, t) :: post).map Prod.fst) s.mem u.mem := by
  have member : (c, t) ∈ pre ++ (c, t) :: post := List.mem_append_right _ List.mem_cons_self
  have node := List.mem_map_of_mem (f := Prod.fst) member
  have page := pages.page _ member
  have notFree := apart _ member
  by_cases more : post ++ pre = []
  · obtain ⟨rfl, rfl⟩ := List.append_eq_nil_iff.mp more
    have alone : nodeNext s.mem c = c := ((isRing_singleton c).mp queue.ring).1
    obtain ⟨u, freed, list', only⟩ := kfree_ok list page notFree
    refine ⟨0, u, ?_, list', ⟨rfl, IsRing.nil, by simp⟩, only.pages node⟩
    rw [removeNode, if_pos alone, freed]
    rfl
  · obtain ⟨unlinked, stores, notAlone⟩ := unlink_queue queue pages more
    have listMid : FreeList L { s with mem := unlink s.mem c } free := by
      refine list.others pages.aligned ?_ stores
      intro p inFree inNodes
      obtain ⟨x, inside, rfl⟩ := List.mem_map.mp inNodes
      exact apart x inside inFree
    obtain ⟨u, freed, list', only⟩ := kfree_ok listMid page notFree
    have fewer := pages.sublist (removed_sublist pre post (c, t))
    have gone : ∀ p ∈ (pre ++ post).map Prod.fst, p ∉ [c] := by
      intro p inside same
      rw [List.mem_singleton] at same
      have nodup := (List.nodup_cons.mp pages.nodup_from).1
      rw [same, List.map_append] at inside
      rw [List.map_append] at nodup
      exact nodup (List.mem_append.mpr (List.mem_append.mp inside).symm)
    refine ⟨_, u, ?_, list', unlinked.others fewer (List.forall_mem_singleton.mpr page.aligned) gone
      (only.pages (List.mem_singleton_self c)), stores.trans (only.pages node)⟩
    rw [removeNode, if_neg notAlone]
    dsimp only
    rw [freed]
    rfl

end Remove

/-- **A pop returns the first thread, and the list is empty after it.** -/
theorem popThreadList_spec {first : Word × Word} {rest : List (Word × Word)}
    (list : FreeList L s free) (queue : Queue s.mem head (first :: rest)) (page : IsPage L first.1)
    (notFree : first.1 ∉ free) :
    ∃ u, popThreadList L head s = .ok (first.2, 0, u) ∧ FreeList L u (first.1 :: free) ∧
      OnlyPage first.1 s.mem u.mem := by
  have here : head = first.1 := queue.head_eq
  have data : nodeData s.mem head = first.2 := by
    rw [here]
    exact queue.data first List.mem_cons_self
  have stored := onlyPage_store (p := first.1) s.mem 1 first.1 (by omega)
  obtain ⟨u, freed, list', only⟩ := kfree_ok (list.other page.aligned notFree stored) page notFree
  refine ⟨u, ?_, list', stored.trans only⟩
  rw [popThreadList, if_neg (here ▸ page.ne_zero)]
  simp only [data]
  rw [if_pos (here ▸ page.ne_zero), here, freed]
  rfl

end ShipOS
