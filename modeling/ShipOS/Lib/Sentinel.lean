/-
**Lists on a head node.**

A list is a ring of nodes through its head, the head itself no element. Several lists use one
pointer structure, and a node that has been taken out keeps its pointers.

* `HeadRings` — the lists and the pointers of the nodes that were taken out;
* `HeadRings.init`, `HeadRings.insert`, `HeadRings.cut` — a new head, a node linked in behind the head,
  and the nodes between two places unlinked;
* `HeadRings.unlink`, `HeadRings.unlink_again` — a node unlinked from its neighbours, and once more when
  it is no longer there: what has been linked in at its place goes with it;
* `loopNodes_eq`, `ring_reverse` — the loop from the head back to the head passes the elements in
  order, and backwards in reverse.
-/

import Mathlib.Data.List.Nodup
import ShipOS.Lib.Pointers

namespace Sentinel

open Ring

set_option linter.unusedSectionVars false

variable {A : Type*} [DecidableEq A]

/-- The pointers of all nodes. -/
structure Pointers (A : Type*) where
  next : A → A
  prev : A → A

namespace Pointers

variable (l : Pointers A)

def setNext (a b : A) : Pointers A := { l with next := Function.update l.next a b }

def setPrev (a b : A) : Pointers A := { l with prev := Function.update l.prev a b }

/-- A head without elements. -/
def init (h : A) : Pointers A := (l.setNext h h).setPrev h h

/-- `p` linked in behind `h`. -/
def insert (h p : A) : Pointers A :=
  (((l.setNext p (l.next h)).setPrev p h).setPrev (l.next h) p).setNext h p

/-- `a` and `b` made neighbours. -/
def join (a b : A) : Pointers A := (l.setNext a b).setPrev b a

/-- `e` unlinked from its neighbours, its own pointers as they are. -/
def unlink (e : A) : Pointers A := l.join (l.prev e) (l.next e)

/-- The same pointers at the nodes `N`. -/
def AgreeOn (N : A → Prop) (l l' : Pointers A) : Prop :=
  ∀ a, N a → l.next a = l'.next a ∧ l.prev a = l'.prev a

end Pointers

variable {N : A → Prop} {l l' l'' : Pointers A} {a b c e h p : A} {xs pre ys post : List A}

namespace Pointers

@[simp] theorem setNext_next_self : (l.setNext a b).next a = b := Function.update_self _ _ _

theorem setNext_next_of_ne (other : c ≠ a) : (l.setNext a b).next c = l.next c :=
  Function.update_of_ne other _ _

@[simp] theorem setNext_prev : (l.setNext a b).prev = l.prev := rfl

@[simp] theorem setPrev_prev_self : (l.setPrev a b).prev a = b := Function.update_self _ _ _

theorem setPrev_prev_of_ne (other : c ≠ a) : (l.setPrev a b).prev c = l.prev c :=
  Function.update_of_ne other _ _

@[simp] theorem setPrev_next : (l.setPrev a b).next = l.next := rfl

theorem AgreeOn.trans (first : AgreeOn N l l') (second : AgreeOn N l' l'') : AgreeOn N l l'' :=
  fun a node => ⟨(first a node).1.trans (second a node).1, (first a node).2.trans (second a node).2⟩

theorem AgreeOn.symm (agree : AgreeOn N l l') : AgreeOn N l' l :=
  fun a node => ⟨(agree a node).1.symm, (agree a node).2.symm⟩

theorem AgreeOn.setNext (agree : AgreeOn N l l') (a b : A) :
    AgreeOn N (l.setNext a b) (l'.setNext a b) := by
  intro c node
  refine ⟨?_, (agree c node).2⟩
  by_cases same : c = a
  · subst same
    simp
  · rw [setNext_next_of_ne same, setNext_next_of_ne same]
    exact (agree c node).1

theorem AgreeOn.setPrev (agree : AgreeOn N l l') (a b : A) :
    AgreeOn N (l.setPrev a b) (l'.setPrev a b) := by
  intro c node
  refine ⟨(agree c node).1, ?_⟩
  by_cases same : c = a
  · subst same
    simp
  · rw [setPrev_prev_of_ne same, setPrev_prev_of_ne same]
    exact (agree c node).2

end Pointers

/-! ### One ring -/

/-- The nodes before and after a stretch. -/
theorem places_mem (h : A) (pre ys post : List A) :
    pre.getLastD h ∈ h :: (pre ++ ys ++ post) ∧ post.headD h ∈ h :: (pre ++ ys ++ post) := by
  refine ⟨?_, ?_⟩
  · cases pre using List.reverseRecOn <;> simp
  · cases post <;> simp

theorem head_next (ring : IsRing l.next l.prev (h :: xs)) :
    l.next h = xs.headD h ∧ l.prev (l.next h) = h := by
  cases xs with
  | nil =>
    obtain ⟨next, prev⟩ := (isRing_singleton h).mp ring
    exact ⟨next, by rw [next, prev]⟩
  | cons x xs =>
    obtain ⟨next, prev⟩ := (List.isChain_cons_cons.mp ring.chain).1
    exact ⟨next, by rw [next, prev]⟩

theorem neighbours (ring : IsRing l.next l.prev (h :: (pre ++ e :: post))) :
    l.prev e = pre.getLastD h ∧ l.next e = post.headD h := by
  have split : IsRing l.next l.prev ((h :: pre) ++ (e :: post)) := ring
  have turned : IsRing l.next l.prev (e :: (post ++ h :: pre)) := split.rotate
  refine ⟨?_, ?_⟩
  · rw [turned.prev_head]
    cases pre using List.reverseRecOn <;> simp
  · rw [(head_next turned).1]
    cases post <;> rfl

/-- A stretch of a ring closed to a ring of its own. -/
theorem ring_close {t : List A} (ring : IsRing l.next l.prev (b :: t ++ ys))
    (nodup : (b :: t).Nodup) :
    IsRing (l.join ((b :: t).getLast (List.cons_ne_nil b t)) b).next
      (l.join ((b :: t).getLast (List.cons_ne_nil b t)) b).prev (b :: t) := by
  have stretch := (List.isChain_append.mp ring.chain).1
  refine ⟨isChain_frame nodup stretch ?_ ?_, ?_⟩
  · intro a _ notLast
    exact Function.update_of_ne notLast _ _
  · intro a _ notFirst
    exact Function.update_of_ne notFirst _ _
  · rintro z last w ⟨⟩
    rw [List.getLast?_eq_some_getLast (List.cons_ne_nil b t)] at last
    cases last
    exact ⟨Function.update_self _ _ _, Function.update_self _ _ _⟩

/-- **The nodes between two places of a ring unlinked.** -/
theorem ring_join (ring : IsRing l.next l.prev (h :: (pre ++ ys ++ post)))
    (nodup : (h :: (pre ++ post)).Nodup) :
    IsRing (l.join (pre.getLastD h) (post.headD h)).next
      (l.join (pre.getLastD h) (post.headD h)).prev (h :: (pre ++ post)) := by
  have last : pre.getLastD h = (h :: pre).getLast (List.cons_ne_nil h pre) := by
    cases pre using List.reverseRecOn <;> simp
  cases post with
  | nil =>
    rw [List.append_nil] at ring nodup ⊢
    rw [last]
    exact ring_close ring nodup
  | cons b post =>
    -- read from `b` on, the nodes that stay are one stretch of the ring
    have split : IsRing l.next l.prev ((h :: pre ++ ys) ++ (b :: post)) := ring
    have turned : IsRing l.next l.prev (b :: (post ++ h :: pre) ++ ys) := by
      simpa using split.rotate
    have perm : ((b :: post) ++ (h :: pre)).Perm ((h :: pre) ++ (b :: post)) :=
      List.perm_append_comm
    have closed := ring_close turned (perm.nodup_iff.mpr nodup)
    have ends : (b :: (post ++ h :: pre)).getLast (List.cons_ne_nil _ _) = pre.getLastD h := by
      rw [last]
      simp
    rw [ends] at closed
    have back : IsRing (l.join (pre.getLastD h) b).next (l.join (pre.getLastD h) b).prev
        ((b :: post) ++ (h :: pre)) := closed
    exact back.rotate

/-- **A node linked in behind the head.** -/
theorem ring_insert (ring : IsRing l.next l.prev (h :: xs)) (nodup : (h :: xs).Nodup)
    (new : p ∉ h :: xs) : IsRing (l.insert h p).next (l.insert h p).prev (h :: p :: xs) := by
  obtain ⟨first, back⟩ := head_next ring
  -- read from the successor of the head on, the new node comes last
  obtain ⟨zs, order⟩ : ∃ zs, xs ++ [h] = l.next h :: zs := by
    rw [first]
    cases xs with
    | nil => exact ⟨[], rfl⟩
    | cons x xs => exact ⟨xs ++ [h], rfl⟩
  have split : IsRing l.next l.prev ([h] ++ xs) := ring
  have turned := split.rotate
  have perm : (xs ++ [h]).Perm (h :: xs) := List.perm_append_comm
  have nodup' := perm.nodup_iff.mpr nodup
  have old : ∀ a ∈ xs ++ [h], a ≠ p := fun a member same => new (same ▸ perm.subset member)
  have oldHead := old h List.mem_concat_self
  have oldNext := old (l.next h) (order ▸ List.mem_cons_self)
  rw [order] at turned nodup' old
  have pushed : IsRing (l.insert h p).next (l.insert h p).prev (l.next h :: zs ++ [p]) := by
    refine turned.push nodup' ?_ ?_ ?_ ?_ ?_ ?_
    · simp [Pointers.insert, Pointers.setNext, Pointers.setPrev, oldHead.symm]
    · simp [Pointers.insert, Pointers.setNext, Pointers.setPrev, oldNext.symm, back]
    · simp [Pointers.insert, Pointers.setNext, back]
    · simp [Pointers.insert, Pointers.setNext, Pointers.setPrev]
    · intro a member notHead
      rw [back] at notHead
      simp [Pointers.insert, Pointers.setNext, Pointers.setPrev, notHead, old a member]
    · intro a member notNext
      simp [Pointers.insert, Pointers.setNext, Pointers.setPrev, notNext, old a member]
  have whole : IsRing (l.insert h p).next (l.insert h p).prev (xs ++ [h, p]) := by
    simpa [← order] using pushed
  exact whole.rotate

/-- The loop `for (p = h->next; p != h; p = p->next)`: the nodes it passes. -/
def loopNodes (next : A → A) (h : A) : Nat → A → Option (List A)
  | 0, _ => none
  | fuel + 1, p => if p = h then some [] else (loopNodes next h fuel (next p)).map (p :: ·)

theorem loopNodes_from {fuel : Nat} : ∀ {xs : List A} {p : A},
    (p :: xs).IsChain (Linked l.next l.prev) →
    l.next ((p :: xs).getLast (List.cons_ne_nil p xs)) = h → h ∉ p :: xs → xs.length + 1 < fuel →
      loopNodes l.next h fuel p = some (p :: xs) := by
  induction fuel with
  | zero => intro xs p _ _ _ enough; cases enough
  | succ fuel ih =>
    intro xs p chain last notIn enough
    have other : p ≠ h := fun same => notIn (same ▸ List.mem_cons_self)
    rw [loopNodes, if_neg other]
    cases xs with
    | nil =>
      obtain ⟨rest, rfl⟩ : ∃ rest, fuel = rest + 1 := ⟨fuel - 1, by simp at enough; omega⟩
      have home : l.next p = h := last
      rw [loopNodes, if_pos home]
      rfl
    | cons y ys =>
      obtain ⟨link, rest⟩ := List.isChain_cons_cons.mp chain
      rw [link.1, ih rest (by simpa using last) (fun member => notIn (.tail p member))
        (by simpa using enough)]
      rfl

/-- **The loop from the head back to the head passes the elements in order.** -/
theorem loopNodes_eq (ring : IsRing l.next l.prev (h :: xs)) (nodup : (h :: xs).Nodup) {fuel : Nat}
    (enough : xs.length < fuel) : loopNodes l.next h fuel (l.next h) = some xs := by
  rw [(head_next ring).1]
  cases xs with
  | nil =>
    obtain ⟨rest, rfl⟩ : ∃ rest, fuel = rest + 1 := ⟨fuel - 1, by simp at enough; omega⟩
    rw [List.headD_nil, loopNodes, if_pos rfl]
  | cons x xs =>
    obtain ⟨-, chain⟩ := List.isChain_cons_cons.mp ring.chain
    refine loopNodes_from chain ?_ (List.nodup_cons.mp nodup).1 (by simpa using enough)
    have closed := ring.closed _ (List.getLast?_eq_some_getLast (List.cons_ne_nil h _)) h rfl
    simpa using closed.1

/-- A ring read backwards. -/
theorem ring_reverse (ring : IsRing l.next l.prev (h :: xs)) :
    IsRing l.prev l.next (h :: xs.reverse) := by
  have turned : IsRing l.prev l.next (xs.reverse ++ [h]) := by
    rw [← List.reverse_cons]
    refine ⟨List.isChain_reverse.mpr (ring.chain.imp fun _ _ link => ⟨link.2, link.1⟩), ?_⟩
    intro z last w head
    rw [List.getLast?_reverse] at last
    rw [List.head?_reverse] at head
    obtain ⟨next, prev⟩ := ring.closed w head z last
    exact ⟨prev, next⟩
  exact turned.rotate

/-! ### Several lists -/

/-- The lists that are in use, by their heads, and where the nodes were that have been taken out:
between which two nodes. -/
structure HeadLists (A : Type*) where
  elems : A → Option (List A)
  left : A → Option (A × A)

namespace HeadLists

variable (s : HeadLists A)

/-- In no list. -/
def Loose (p : A) : Prop := ∀ h xs, s.elems h = some xs → p ∉ h :: xs

/-- In no list but that of `h`. -/
def Own (h p : A) : Prop := ∀ k ys, s.elems k = some ys → k ≠ h → p ∉ k :: ys

def set (h : A) (xs : List A) (left : A → Option (A × A)) : HeadLists A :=
  ⟨Function.update s.elems h (some xs), left⟩

end HeadLists

variable {s : HeadLists A} {left : A → Option (A × A)}

theorem HeadLists.set_elems_self : (s.set h xs left).elems h = some xs := Function.update_self _ _ _

theorem HeadLists.set_cases {k : A} {ys : List A} (held : (s.set h xs left).elems k = some ys) :
    (k = h ∧ ys = xs) ∨ (k ≠ h ∧ s.elems k = some ys) := by
  by_cases same : k = h
  · subst same
    exact .inl ⟨rfl, Option.some.inj (held.symm.trans set_elems_self)⟩
  · have kept : (s.set h xs left).elems k = s.elems k := Function.update_of_ne same _ _
    exact .inr ⟨same, kept ▸ held⟩

theorem HeadLists.loose_set (own : s.Own h e) (out : e ∉ h :: xs) : (s.set h xs left).Loose e := by
  intro k ys held
  rcases set_cases held with ⟨rfl, rfl⟩ | ⟨other, held⟩
  · exact out
  · exact own k ys held other

theorem HeadLists.Loose.own (loose : s.Loose e) (h : A) : s.Own h e := fun k ys held _ =>
  loose k ys held

/-- **The pointers hold the lists.** -/
structure HeadRings (N : A → Prop) (l : Pointers A) (s : HeadLists A) : Prop where
  ring : ∀ h xs, s.elems h = some xs → IsRing l.next l.prev (h :: xs)
  nodup : ∀ h xs, s.elems h = some xs → (h :: xs).Nodup
  node : ∀ h xs, s.elems h = some xs → ∀ a ∈ h :: xs, N a
  apart : ∀ h xs, s.elems h = some xs → ∀ a ∈ h :: xs, s.Own h a
  left : ∀ e a b, s.left e = some (a, b) → N e ∧ s.Loose e ∧ l.prev e = a ∧ l.next e = b

namespace HeadRings

/-- Only the pointers of the nodes matter. -/
theorem congr (rings : HeadRings N l s) (agree : l.AgreeOn N l') : HeadRings N l' s where
  ring h xs held := (rings.ring h xs held).frame
    (fun a member => ((agree a (rings.node h xs held a member)).1).symm)
    fun a member => ((agree a (rings.node h xs held a member)).2).symm
  nodup := rings.nodup
  node := rings.node
  apart := rings.apart
  left e a b was := by
    obtain ⟨node, loose, prev, next⟩ := rings.left e a b was
    exact ⟨node, loose, (agree e node).2.symm.trans prev, (agree e node).1.symm.trans next⟩

/-- **One list changes**, and with it the pointers of the nodes `touched`, which are in no other
list. -/
theorem change (rings : HeadRings N l s) (touched : List A)
    (ring : IsRing l'.next l'.prev (h :: xs)) (nodup : (h :: xs).Nodup)
    (node : ∀ a ∈ h :: xs, N a) (own : ∀ a ∈ h :: xs, s.Own h a)
    (alone : ∀ a ∈ touched, s.Own h a)
    (frame : ∀ a, a ∉ touched → l'.next a = l.next a ∧ l'.prev a = l.prev a)
    (taken : ∀ e a b, left e = some (a, b) → e ∉ touched ∧ N e ∧ (s.set h xs left).Loose e ∧
      l.prev e = a ∧ l.next e = b) :
    HeadRings N l' (s.set h xs left) := by
  refine ⟨?_, ?_, ?_, ?_, ?_⟩
  · intro k ys held
    rcases HeadLists.set_cases held with ⟨rfl, rfl⟩ | ⟨other, held⟩
    · exact ring
    · have same : ∀ a ∈ k :: ys, l'.next a = l.next a ∧ l'.prev a = l.prev a := fun a member =>
        frame a fun inside => alone a inside k ys held other member
      exact (rings.ring k ys held).frame (fun a member => (same a member).1)
        fun a member => (same a member).2
  · intro k ys held
    rcases HeadLists.set_cases held with ⟨rfl, rfl⟩ | ⟨-, held⟩
    · exact nodup
    · exact rings.nodup k ys held
  · intro k ys held
    rcases HeadLists.set_cases held with ⟨rfl, rfl⟩ | ⟨-, held⟩
    · exact node
    · exact rings.node k ys held
  · intro k ys held a member j zs held' different
    rcases HeadLists.set_cases held with ⟨rfl, rfl⟩ | ⟨other, before⟩ <;>
      rcases HeadLists.set_cases held' with ⟨rfl, rfl⟩ | ⟨other', before'⟩
    · exact absurd rfl different
    · exact own a member j zs before' other'
    · exact fun inside => own a inside k ys before other member
    · exact rings.apart k ys before a member j zs before' different
  · intro e a b was
    obtain ⟨out, node, loose, prev, next⟩ := taken e a b was
    exact ⟨node, loose, (frame e out).2.trans prev, (frame e out).1.trans next⟩

/-- **A new head**, or one used again: its elements are loose then. -/
theorem init (rings : HeadRings N l s) (node : N h) (own : s.Own h h) :
    HeadRings N (l.init h) (s.set h [] (Function.update s.left h none)) := by
  refine rings.change [h] ?_ (List.nodup_singleton h) ?_ ?_ ?_ ?_ ?_
  · exact (isRing_singleton h).mpr ⟨Function.update_self _ _ _, Function.update_self _ _ _⟩
  · simpa using node
  · simpa using own
  · simpa using own
  · intro a out
    have other : a ≠ h := by simpa using out
    exact ⟨Function.update_of_ne other _ _, Function.update_of_ne other _ _⟩
  · intro e a b was
    by_cases same : e = h
    · subst same
      rw [Function.update_self] at was
      cases was
    · rw [Function.update_of_ne same] at was
      obtain ⟨node', loose, pointers⟩ := rings.left e a b was
      have out : e ∉ [h] := by simpa using same
      exact ⟨out, node', HeadLists.loose_set (loose.own h) out, pointers⟩

/-- **A loose node linked in behind the head.** -/
theorem insert (rings : HeadRings N l s) (held : s.elems h = some xs) (node : N p)
    (loose : s.Loose p) :
    HeadRings N (l.insert h p) (s.set h (p :: xs) (Function.update s.left p none)) := by
  have ring := rings.ring h xs held
  have new := loose h xs held
  have nodup := rings.nodup h xs held
  have nextMem : l.next h ∈ h :: xs := ring.next_mem List.mem_cons_self
  have inserted : ∀ a ∈ h :: p :: xs, a = p ∨ a ∈ h :: xs := by
    intro a member
    simp only [List.mem_cons] at member ⊢
    tauto
  have own : ∀ a, a = p ∨ a ∈ h :: xs → s.Own h a := by
    rintro a (rfl | member)
    · exact loose.own h
    · exact rings.apart h xs held a member
  refine rings.change [p, l.next h, h] (ring_insert ring nodup new) ?_ ?_ ?_ ?_ ?_ ?_
  · obtain ⟨notLater, tail⟩ := List.nodup_cons.mp nodup
    simp only [List.mem_cons, not_or] at new
    simp only [List.nodup_cons, List.mem_cons, not_or]
    exact ⟨⟨Ne.symm new.1, notLater⟩, new.2, tail⟩
  · intro a member
    rcases inserted a member with rfl | member
    · exact node
    · exact rings.node h xs held a member
  · exact fun a member => own a (inserted a member)
  · intro a member
    simp only [List.mem_cons, List.not_mem_nil, or_false] at member
    rcases member with rfl | rfl | rfl
    · exact own a (.inl rfl)
    · exact own _ (.inr nextMem)
    · exact own a (.inr List.mem_cons_self)
  · intro a out
    simp only [List.mem_cons, List.not_mem_nil, or_false, not_or] at out
    simp [Pointers.insert, Pointers.setNext, Pointers.setPrev, out]
  · intro e a b was
    by_cases same : e = p
    · subst same
      rw [Function.update_self] at was
      cases was
    · rw [Function.update_of_ne same] at was
      obtain ⟨node', gone, pointers⟩ := rings.left e a b was
      have out := gone h xs held
      refine ⟨?_, node', HeadLists.loose_set (gone.own h) ?_, pointers⟩
      · simp only [List.mem_cons, List.not_mem_nil, or_false, not_or]
        exact ⟨same, fun at' => out (at' ▸ nextMem), fun at' => out (at' ▸ List.mem_cons_self)⟩
      · intro member
        rcases inserted e member with at' | member
        · exact same at'
        · exact out member

/-- **The nodes between two places unlinked**: any of them may count as taken out, if its pointers
are known. -/
theorem cut (rings : HeadRings N l s) (held : s.elems h = some (pre ++ ys ++ post))
    (taken : ∀ e a b, left e = some (a, b) →
      s.left e = some (a, b) ∨ (e ∈ ys ∧ l.prev e = a ∧ l.next e = b)) :
    HeadRings N (l.join (pre.getLastD h) (post.headD h)) (s.set h (pre ++ post) left) := by
  have nodup := rings.nodup h _ held
  have sub : (h :: (pre ++ post)).Sublist (h :: (pre ++ ys ++ post)) := by
    simp
  have stay : ∀ a ∈ h :: (pre ++ post), a ∈ h :: (pre ++ ys ++ post) := fun a => sub.mem
  obtain ⟨lastMem, firstMem⟩ : pre.getLastD h ∈ h :: (pre ++ post) ∧
      post.headD h ∈ h :: (pre ++ post) := by
    simpa using places_mem h pre [] post
  have out : ∀ a, a ∉ h :: (pre ++ post) → a ∉ [pre.getLastD h, post.headD h] := by
    intro a missing member
    simp only [List.mem_cons, List.not_mem_nil, or_false] at member
    rcases member with rfl | rfl
    · exact missing lastMem
    · exact missing firstMem
  refine rings.change [pre.getLastD h, post.headD h] (ring_join (rings.ring h _ held)
    (nodup.sublist sub)) (nodup.sublist sub) ?_ ?_ ?_ ?_ ?_
  · exact fun a member => rings.node h _ held a (stay a member)
  · exact fun a member => rings.apart h _ held a (stay a member)
  · intro a member
    simp only [List.mem_cons, List.not_mem_nil, or_false] at member
    rcases member with rfl | rfl
    · exact rings.apart h _ held _ (stay _ lastMem)
    · exact rings.apart h _ held _ (stay _ firstMem)
  · intro a missing
    simp only [List.mem_cons, List.not_mem_nil, or_false, not_or] at missing
    exact ⟨Function.update_of_ne missing.1 _ _, Function.update_of_ne missing.2 _ _⟩
  · intro e a b was
    rcases taken e a b was with was | ⟨member, pointers⟩
    · obtain ⟨node, loose, pointers⟩ := rings.left e a b was
      have gone : e ∉ h :: (pre ++ post) := fun member => loose h _ held (stay e member)
      exact ⟨out e gone, node, HeadLists.loose_set (loose.own h) gone, pointers⟩
    · have inside : e ∈ h :: (pre ++ ys ++ post) := by simp [member]
      have gone : e ∉ h :: (pre ++ post) := by
        simp only [List.nodup_cons, List.nodup_append, List.mem_append, List.mem_cons] at nodup ⊢
        grind
      exact ⟨out e gone, rings.node h _ held e inside,
        HeadLists.loose_set (rings.apart h _ held e inside) gone, pointers⟩

/-- **A node unlinked.** -/
theorem unlink (rings : HeadRings N l s) (held : s.elems h = some (pre ++ e :: post)) :
    HeadRings N (l.unlink e) (s.set h (pre ++ post)
      (Function.update s.left e (some (pre.getLastD h, post.headD h)))) := by
  obtain ⟨prev, next⟩ := neighbours (rings.ring h _ held)
  rw [Pointers.unlink, prev, next]
  have between : s.elems h = some (pre ++ [e] ++ post) := by simpa using held
  refine rings.cut between fun f a b was => ?_
  by_cases same : f = e
  · subst same
    rw [Function.update_self] at was
    cases was
    exact .inr ⟨List.mem_singleton_self f, prev, next⟩
  · rw [Function.update_of_ne same] at was
    exact .inl was

/-- **A node unlinked that is no longer there**: what has been linked in at its place goes. -/
theorem unlink_again (rings : HeadRings N l s) (held : s.elems h = some (pre ++ ys ++ post))
    (was : s.left e = some (pre.getLastD h, post.headD h)) :
    HeadRings N (l.unlink e) (s.set h (pre ++ post) s.left) := by
  obtain ⟨-, -, prev, next⟩ := rings.left e _ _ was
  rw [Pointers.unlink, prev, next]
  exact rings.cut held fun f a b was => .inl was

end HeadRings

end Sentinel
