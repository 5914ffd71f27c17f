/-
**Rings as queues (`threads.c`, `proc.c`).**

Both kinds of lists are to be queues: `push` appends, `shift` turns, `peek` reads the first element and
`pop` takes it out. The first three are. The condition of `pop` is an assignment, so a pop takes the
branch for the last element whatever the list holds: it returns the first element and frees its node,
and the list is empty after it.

* `RingList` — a list with its nodes, apart from the free pages;
* `RingList.refines` — a run of pushes and pops is a run of a queue that a pop empties;
* `rings_queues_iff` — which of the operations are those of a queue, and which runs.
-/

import ShipOS.Lib.Scheduling
import ShipOS.Sched.ProcLists

namespace ShipOS

open ByteMem Ring Runs Fifo

variable {L : Layout} {s s' : Phys} {list list' : Word} {free : List Word} {x : Word × Word}
  {q rest : List (Word × Word)} {v : ListVar}

/-- **A list in memory**, in pages of its own. -/
structure RingList (L : Layout) (s : Phys) (list : Word) (free : List Word)
    (q : List (Word × Word)) : Prop where
  pages : FreeList L s free
  queue : Queue s.mem list q
  nodes : NodePages L q
  apart : ∀ x ∈ q, x.1 ∉ free

/-! ### The operations of a queue -/

/-- `push` appends the element, in a node from the free list. -/
def PushesBack (L : Layout) (v : ListVar) (s : Phys) (list : Word) (free : List Word)
    (q : List (Word × Word)) (y : Word) : Prop :=
  ∃ f rest list' s', free = f :: rest ∧ v.push list y s = .ok (list', s') ∧
    RingList L s' list' rest (q ++ [(f, y)])

/-- `shift` makes the first element the last. -/
def ShiftsRound (L : Layout) (v : ListVar) (s : Phys) (list : Word) (free : List Word)
    (x : Word × Word) (rest : List (Word × Word)) : Prop :=
  ∃ list', v.shift list s.mem = .ok list' ∧ RingList L s list' free (rest ++ [x])

/-- `pop` returns the first element and frees its node; the others stay. -/
def PopsFront (L : Layout) (v : ListVar) (s : Phys) (list : Word) (free : List Word)
    (x : Word × Word) (rest : List (Word × Word)) : Prop :=
  ∃ list' s', v.pop L list s = .ok (x.2, list', s') ∧ RingList L s' list' (x.1 :: free) rest

/-! ### What they do -/

namespace RingList

theorem head (ring : RingList L s list free (x :: rest)) : list = x.1 ∧ list ≠ 0 := by
  have first : list = x.1 := ring.queue.head_eq
  exact ⟨first, first ▸ (ring.nodes.page x List.mem_cons_self).ne_zero⟩

theorem push {f : Word} (ring : RingList L s list (f :: free) q) (v : ListVar) (y : Word) :
    ∃ list' s', v.push list y s = .ok (list', s') ∧ RingList L s' list' free (q ++ [(f, y)]) := by
  obtain ⟨list', s', done, pages, queue, -⟩ :=
    pushThreadList_spec y ring.pages ring.queue ring.nodes ring.apart
  have fresh := (List.nodup_cons.mp ring.pages.nodup).1
  refine ⟨list', s', ?_, pages, queue, ⟨?_, ?_⟩, ?_⟩
  · cases v <;> exact done
  · refine List.forall_mem_append.mpr ⟨ring.nodes.page, List.forall_mem_singleton.mpr ?_⟩
    exact ring.pages.page f List.mem_cons_self
  · rw [List.map_append, List.nodup_append]
    refine ⟨ring.nodes.nodup, List.nodup_singleton _, fun p member r here => ?_⟩
    obtain ⟨z, inside, rfl⟩ := List.mem_map.mp member
    rw [List.mem_singleton.mp here]
    exact fun same => ring.apart z inside (same ▸ List.mem_cons_self)
  · refine List.forall_mem_append.mpr ⟨fun z inside here => ?_, List.forall_mem_singleton.mpr fresh⟩
    exact ring.apart z inside (List.mem_cons_of_mem _ here)

theorem push_exhausted (ring : RingList L s list [] q) (v : ListVar) (y : Word) :
    v.push list y s = .error .nullStore := by
  cases v <;> exact pushThreadList_exhausted ring.pages y

theorem shift (ring : RingList L s list free (x :: rest)) (v : ListVar) :
    ShiftsRound L v s list free x rest := by
  obtain ⟨first, nonNull⟩ := ring.head
  have perm := List.perm_append_singleton x rest
  have turned : Queue s.mem (nodeNext s.mem x.1) (rest ++ ([] ++ [x])) := Queue.turn ring.queue
  refine ⟨nodeNext s.mem x.1, ?_, ring.pages, turned, ⟨?_, ?_⟩, ?_⟩
  · subst first
    cases v <;> exact if_neg nonNull
  · exact fun z inside => ring.nodes.page z (perm.mem_iff.mp inside)
  · exact (perm.map Prod.fst).nodup_iff.mpr ring.nodes.nodup
  · exact fun z inside => ring.apart z (perm.mem_iff.mp inside)

theorem peek (ring : RingList L s list free (x :: rest)) (v : ListVar) :
    v.peek list s.mem = .ok x.2 := by
  obtain ⟨first, nonNull⟩ := ring.head
  have item : Except.ok (nodeData s.mem list) = (Except.ok x.2 : Except Halt Word) := by
    rw [first]
    exact congrArg Except.ok (ring.queue.data x List.mem_cons_self)
  cases v <;> exact (if_neg nonNull).trans item

/-- **A pop empties the list.** -/
theorem pop (ring : RingList L s list free (x :: rest)) (v : ListVar) :
    ∃ s', v.pop L list s = .ok (x.2, 0, s') ∧ RingList L s' 0 (x.1 :: free) [] := by
  obtain ⟨first, nonNull⟩ := ring.head
  obtain ⟨s', done, pages, -⟩ := popThreadList_spec ring.pages ring.queue
    (ring.nodes.page x List.mem_cons_self) (ring.apart x List.mem_cons_self)
  refine ⟨s', ?_, pages, ⟨rfl, IsRing.nil, by simp⟩, ⟨by simp, List.nodup_nil⟩, by simp⟩
  cases v with
  | procList => exact (if_neg nonNull).trans done
  | threads proc => exact done

theorem pop_empty (ring : RingList L s list free []) (v : ListVar) {r : Word × Word × Phys} :
    v.pop L list s ≠ .ok r := by
  obtain rfl : list = 0 := ring.queue.head_eq
  cases v with
  | procList =>
    rw [ListVar.pop, popProcList, if_pos rfl]
    intro done
    cases done
  | threads proc =>
    rw [ListVar.pop, popThreadList, if_pos rfl]
    intro done
    cases done

theorem pushesBack_iff (ring : RingList L s list free q) (v : ListVar) (y : Word) :
    PushesBack L v s list free q y ↔ free ≠ [] := by
  constructor
  · rintro ⟨f, rest, _, _, rfl, -⟩
    exact List.cons_ne_nil f rest
  · intro nonEmpty
    obtain ⟨f, rest, rfl⟩ := List.exists_cons_of_ne_nil nonEmpty
    obtain ⟨list', s', done, ring'⟩ := ring.push v y
    exact ⟨f, rest, list', s', rfl, done, ring'⟩

theorem popsFront_iff (ring : RingList L s list free (x :: rest)) (v : ListVar) :
    PopsFront L v s list free x rest ↔ rest = [] := by
  obtain ⟨s', done, empty⟩ := ring.pop v
  constructor
  · rintro ⟨list', t, done', ring'⟩
    cases done.symm.trans done'
    cases rest with
    | nil => rfl
    | cons y rest => exact absurd rfl ring'.head.2
  · rintro rfl
    exact ⟨0, s', done, empty⟩

end RingList

/-! ### Runs -/

/-- Pushes and pops that return, on a list and the memory it is in. -/
inductive ListStep (L : Layout) (v : ListVar) : Phys × Word → Op Word → Phys × Word → Prop
  | push {s s' : Phys} {list list' y : Word} (done : v.push list y s = .ok (list', s')) :
      ListStep L v (s, list) (.push y) (s', list')
  | pop {s s' : Phys} {list list' y : Word} (done : v.pop L list s = .ok (y, list', s')) :
      ListStep L v (s, list) (.pop y) (s', list')

/-- The elements of a list. -/
def elements (q : List (Word × Word)) : List Word := q.map Prod.snd

theorem RingList.step {y : Op Word} (ring : RingList L s list free q)
    (step : ListStep L v (s, list) y (s', list')) :
    ∃ free' q', RingList L s' list' free' q' ∧ Dropping (elements q) y (elements q') := by
  cases step with
  | push done =>
    rename_i y
    cases free with
    | nil =>
      rw [ring.push_exhausted] at done
      cases done
    | cons f rest =>
      obtain ⟨_, _, done', ring'⟩ := ring.push v y
      cases done'.symm.trans done
      refine ⟨rest, _, ring', ?_⟩
      rw [elements, elements, List.map_append]
      exact .push _ y
  | pop done =>
    cases q with
    | nil => exact absurd done (ring.pop_empty v)
    | cons x rest =>
      obtain ⟨_, done', ring'⟩ := ring.pop v
      cases done'.symm.trans done
      exact ⟨_, [], ring', .pop _ x.2⟩

/-- **A run of pushes and pops** is one of a queue that a pop empties. -/
theorem RingList.refines {a b : Phys × Word} {ops : List (Op Word)}
    (run : Run (ListStep L v) a ops b) : ∀ {free q}, RingList L a.1 a.2 free q →
      ∃ free' q', RingList L b.1 b.2 free' q' ∧ Run Dropping (elements q) ops (elements q') := by
  induction run with
  | nil a => exact fun ring => ⟨_, _, ring, .nil _⟩
  | cons step _ ih =>
    intro free q ring
    obtain ⟨_, _, ring₁, first⟩ := ring.step step
    obtain ⟨free', q', ring', others⟩ := ih ring₁
    exact ⟨free', q', ring', .cons first others⟩

/-- **Where rings behave as queues**, for both kinds of lists and any number of elements. With a free
page a push appends, and a shift and a peek always do what they are to; a pop takes the first element
out exactly if it is the only one. So in a run of pushes and pops the elements come out in the order
they were pushed, with none lost, exactly if every pop is from a list with one element. -/
theorem rings_queues_iff (ring : RingList L s list free (x :: rest)) (v : ListVar) :
    (∀ y, PushesBack L v s list free (x :: rest) y ↔ free ≠ []) ∧
    ShiftsRound L v s list free x rest ∧ v.peek list s.mem = .ok x.2 ∧
    (PopsFront L v s list free x rest ↔ rest = []) ∧
    ∀ ops s' list', Run (ListStep L v) (s, list) ops (s', list') →
      ∃ free' q', RingList L s' list' free' q' ∧
        (elements (x :: rest) ++ pushed ops = popped ops ++ elements q' ↔
          dropped (rest.length + 1) ops = 0) := by
  refine ⟨ring.pushesBack_iff v, ring.shift v, ring.peek v, ring.popsFront_iff v, ?_⟩
  intro ops s' list' run
  obtain ⟨free', q', ring', refined⟩ := RingList.refines run ring
  refine ⟨free', q', ring', ?_⟩
  rw [dropping_conserves_iff refined, elements, List.length_map, List.length_cons]

theorem demoPhys_ring : RingList demoLayout demoPhys 0 [0x200000, 0x201000, 0x202000] [] :=
  ⟨demoPhys_list, ⟨rfl, IsRing.nil, by simp⟩, ⟨by simp, List.nodup_nil⟩, by simp⟩

/-- One element comes out as it went in. -/
theorem rings_queues_single : ∃ s list, pushProcList 0 5 demoPhys = .ok (list, s) ∧
    PopsFront demoLayout .procList s list [0x201000, 0x202000] (0x200000, 5) [] := by
  obtain ⟨list, s, done, ring⟩ := demoPhys_ring.push .procList 5
  exact ⟨s, list, done, (rings_queues_iff ring .procList).2.2.2.1.mpr rfl⟩

/-- **The second of two elements is lost**: the pop returns the first, and the list is null. -/
theorem pop_loses_second : ∃ s list s',
    Run (ListStep demoLayout (.threads 0)) (demoPhys, 0) [.push 5, .push 7] (s, list) ∧
    RingList demoLayout s list [0x202000] [(0x200000, 5), (0x201000, 7)] ∧
    popThreadList demoLayout list s = .ok (5, 0, s') ∧
    ¬ PopsFront demoLayout (.threads 0) s list [0x202000] (0x200000, 5) [(0x201000, 7)] := by
  obtain ⟨list₁, s₁, first, ring₁⟩ := demoPhys_ring.push (.threads 0) 5
  obtain ⟨list₂, s₂, second, ring₂⟩ := ring₁.push (.threads 0) 7
  obtain ⟨s', done, -⟩ := ring₂.pop (.threads 0)
  exact ⟨s₂, list₂, s', .cons (.push first) (.cons (.push second) (.nil _)), ring₂, done,
    fun pops => List.cons_ne_nil _ _ ((ring₂.popsFront_iff _).mp pops)⟩

end ShipOS
