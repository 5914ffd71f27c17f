/-
**Pointer structures: lists, rings and trees.**

The links are functions over any pointer type, so the memory they are read from plays no role here.

* `Spine` — null-terminated lists;
* `IsRing` — circular doubly linked lists, with their insertion, removal and scan;
* `follow`, `UniqueTo` — trees whose nodes are reached along paths of indices.
-/

import Mathlib.Data.List.Chain
import Mathlib.Data.List.Induction
import Mathlib.Data.List.Nodup
import Mathlib.Tactic.Common

/-! ## Null-terminated lists in a pointer structure

`Spine next null head xs` — following `next` from `head` visits exactly `xs` and then reaches
`null`. Over any pointer type: the links are a function, so the memory they are read from plays no
role here. A spine only reads the links of its own cells (`Spine.frame`) and determines its list
(`Spine.unique`). -/

namespace Linked

variable {A : Type*}

/-- `xs` is the list that starts at `head` and follows `next` to `null`. -/
def Spine (next : A → A) (null : A) : A → List A → Prop
  | head, [] => head = null
  | head, x :: xs => head = x ∧ x ≠ null ∧ Spine next null (next x) xs

instance [DecidableEq A] (next : A → A) (null : A) :
    ∀ (head : A) (xs : List A), Decidable (Spine next null head xs)
  | head, [] => inferInstanceAs (Decidable (head = null))
  | head, x :: xs =>
    have := instDecidableSpineOfDecidableEq next null (next x) xs
    inferInstanceAs (Decidable (head = x ∧ x ≠ null ∧ Spine next null (next x) xs))

variable {next next' : A → A} {null head : A} {xs : List A}

theorem Spine.frame (spine : Spine next null head xs) (same : ∀ x ∈ xs, next' x = next x) :
    Spine next' null head xs := by
  induction xs generalizing head with
  | nil => exact spine
  | cons x xs ih =>
    obtain ⟨here, cell, rest⟩ := spine
    refine ⟨here, cell, ?_⟩
    rw [same x List.mem_cons_self]
    exact ih rest fun y member => same y (List.mem_cons_of_mem _ member)

theorem Spine.unique {ys : List A} (first : Spine next null head xs)
    (second : Spine next null head ys) : xs = ys := by
  induction xs generalizing head ys with
  | nil =>
    cases ys with
    | nil => rfl
    | cons y ys => exact absurd (second.1.symm.trans first) second.2.1
  | cons x xs ih =>
    cases ys with
    | nil => exact absurd (first.1.symm.trans second) first.2.1
    | cons y ys =>
      have same : x = y := first.1.symm.trans second.1
      subst same
      rw [ih first.2.2 second.2.2]

end Linked

/-! ## Circular doubly linked lists in a pointer structure

`IsRing next prev xs`: the nodes `xs`, in this order, form a ring, the last one linked back to the
first. The order has no preferred start (`IsRing.rotate`), so a node in the middle is removed as the
head of a rotated ring.

* `IsRing.push` — a new node between the last one and the head;
* `IsRing.remove_head` — the head unlinked from its two neighbours;
* `scan_eq` — the `do … while (current != start)` scan finds the first node that satisfies a
  condition and never runs out of `fuel`. -/

namespace Ring

variable {A : Type*}

/-- `b` is the successor of `a`, and `a` the predecessor of `b`. -/
def Linked (next prev : A → A) (a b : A) : Prop := next a = b ∧ prev b = a

/-- **A ring**, as the list of its nodes in order. -/
structure IsRing (next prev : A → A) (xs : List A) : Prop where
  chain : xs.IsChain (Linked next prev)
  closed : ∀ z ∈ xs.getLast?, ∀ h ∈ xs.head?, Linked next prev z h

variable {next prev next' prev' : A → A} {xs ys : List A} {h n : A}

theorem IsRing.nil : IsRing next prev [] := ⟨.nil, by simp⟩

theorem isRing_singleton (x : A) : IsRing next prev [x] ↔ next x = x ∧ prev x = x :=
  ⟨fun ring => ring.closed x rfl x rfl, fun self => ⟨.singleton x, by
    rintro z ⟨⟩ y ⟨⟩
    exact self⟩⟩

/-- **A ring may be read from any of its nodes.** -/
theorem IsRing.rotate (ring : IsRing next prev (xs ++ ys)) : IsRing next prev (ys ++ xs) := by
  rcases xs with _ | ⟨x, xs⟩
  · simpa using ring
  rcases ys with _ | ⟨y, ys⟩
  · simpa using ring
  obtain ⟨left, right, between⟩ := List.isChain_append.mp ring.chain
  refine ⟨List.isChain_append.mpr ⟨right, left, ?_⟩, ?_⟩
  · intro z last w head
    refine ring.closed z ?_ w ?_
    · rw [List.getLast?_append, last]
      rfl
    · exact head
  · intro z last w head
    refine between z ?_ w ?_
    · rw [List.getLast?_append] at last
      simpa using last
    · exact head

/-- The predecessor of the head is the last node. -/
theorem IsRing.prev_head (ring : IsRing next prev (h :: xs)) :
    prev h = (h :: xs).getLast (List.cons_ne_nil h xs) :=
  (ring.closed _ (List.getLast?_eq_some_getLast _) h rfl).2

theorem IsRing.prev_mem (ring : IsRing next prev (h :: xs)) : prev h ∈ h :: xs := by
  rw [ring.prev_head]
  exact List.getLast_mem _

/-- A ring is closed under the successor. -/
theorem IsRing.next_mem {a : A} (ring : IsRing next prev xs) (member : a ∈ xs) : next a ∈ xs := by
  obtain ⟨pre, post, rfl⟩ := List.append_of_mem member
  have turned := ring.rotate
  have subset : (a :: post ++ pre) ⊆ pre ++ a :: post := List.perm_append_comm.subset
  rw [List.cons_append] at turned subset
  refine subset ?_
  cases rest : post ++ pre with
  | nil =>
    rw [rest] at turned
    rw [((isRing_singleton a).mp turned).1]
    exact List.mem_singleton_self a
  | cons b ys =>
    rw [rest] at turned
    rw [(List.isChain_cons_cons.mp turned.chain).1.1]
    exact List.mem_cons_of_mem _ List.mem_cons_self

/-- Whatever is read from a node of a ring along the successors is in the ring. -/
theorem IsRing.chain_subset {a : A} (ring : IsRing next prev xs) (member : a ∈ xs)
    (chain : (a :: ys).IsChain (Linked next prev)) : ∀ b ∈ a :: ys, b ∈ xs :=
  chain.induction (· ∈ xs) _ (fun _ _ link inside => link.1 ▸ ring.next_mem inside) fun _ => member

/-- **The inner links do not read the successor of the last node and the predecessor of the
head.** -/
theorem isChain_frame : ∀ {xs : List A} {h : A}, (h :: xs).Nodup →
    (h :: xs).IsChain (Linked next prev) →
      (∀ a ∈ h :: xs, a ≠ (h :: xs).getLast (List.cons_ne_nil h xs) → next' a = next a) →
        (∀ b ∈ h :: xs, b ≠ h → prev' b = prev b) → (h :: xs).IsChain (Linked next' prev') := by
  intro xs
  induction xs with
  | nil => exact fun _ _ _ _ => .singleton _
  | cons b xs ih =>
    intro h nodup chain sameNext samePrev
    obtain ⟨notLater, nodupTail⟩ := List.nodup_cons.mp nodup
    obtain ⟨first, rest⟩ := List.isChain_cons_cons.mp chain
    have different : ∀ a ∈ b :: xs, a ≠ h := fun a member same => notLater (same ▸ member)
    refine List.isChain_cons_cons.mpr ⟨⟨?_, ?_⟩, ih nodupTail rest ?_ ?_⟩
    · rw [sameNext h List.mem_cons_self, first.1]
      rw [List.getLast_cons (List.cons_ne_nil b xs)]
      exact (different _ (List.getLast_mem _)).symm
    · rw [samePrev b (List.mem_cons_of_mem _ List.mem_cons_self)
        (different b List.mem_cons_self), first.2]
    · intro a member notLast
      refine sameNext a (List.mem_cons_of_mem _ member) ?_
      rwa [List.getLast_cons (List.cons_ne_nil b xs)]
    · intro a member _
      exact samePrev a (List.mem_cons_of_mem _ member) (different a member)

/-- A ring does not read other nodes. -/
theorem IsRing.frame (ring : IsRing next prev xs) (sameNext : ∀ a ∈ xs, next' a = next a)
    (samePrev : ∀ a ∈ xs, prev' a = prev a) : IsRing next' prev' xs := by
  refine ⟨ring.chain.imp_of_mem_imp ?_, ?_⟩
  · rintro a b memberA memberB ⟨forward, back⟩
    exact ⟨(sameNext a memberA).trans forward, (samePrev b memberB).trans back⟩
  · intro z last w head
    obtain ⟨forward, back⟩ := ring.closed z last w head
    exact ⟨(sameNext z (List.mem_of_mem_getLast? last)).trans forward,
      (samePrev w (List.mem_of_mem_head? head)).trans back⟩

/-- **A new node between the last one and the head.** -/
theorem IsRing.push (ring : IsRing next prev (h :: xs)) (nodup : (h :: xs).Nodup)
    (nextNew : next' n = h) (prevNew : prev' n = prev h) (nextLast : next' (prev h) = n)
    (prevHead : prev' h = n) (sameNext : ∀ a ∈ h :: xs, a ≠ prev h → next' a = next a)
    (samePrev : ∀ b ∈ h :: xs, b ≠ h → prev' b = prev b) :
    IsRing next' prev' (h :: xs ++ [n]) := by
  have last := ring.prev_head
  refine ⟨List.isChain_append.mpr ⟨?_, .singleton n, ?_⟩, ?_⟩
  · exact isChain_frame nodup ring.chain (fun a member other => sameNext a member (last ▸ other))
      samePrev
  · rintro z tail w ⟨⟩
    rw [List.getLast?_eq_some_getLast (List.cons_ne_nil h xs), ← last] at tail
    cases tail
    exact ⟨nextLast, prevNew⟩
  · rintro z tail w ⟨⟩
    rw [List.getLast?_concat] at tail
    cases tail
    exact ⟨nextNew, prevHead⟩

/-- **The head unlinked.** -/
theorem IsRing.remove_head {c : A} (ring : IsRing next prev (c :: h :: xs))
    (nodup : (h :: xs).Nodup) (nextLast : next' (prev c) = next c)
    (prevNext : prev' (next c) = prev c)
    (sameNext : ∀ a ∈ h :: xs, a ≠ prev c → next' a = next a)
    (samePrev : ∀ b ∈ h :: xs, b ≠ next c → prev' b = prev b) : IsRing next' prev' (h :: xs) := by
  have last := ring.prev_head
  rw [List.getLast_cons (List.cons_ne_nil h xs)] at last
  obtain ⟨first, rest⟩ := List.isChain_cons_cons.mp ring.chain
  rw [first.1] at nextLast prevNext samePrev
  refine ⟨isChain_frame nodup rest (fun a member other => sameNext a member (last ▸ other))
    samePrev, ?_⟩
  rintro z tail w ⟨⟩
  rw [List.getLast?_eq_some_getLast (List.cons_ne_nil h xs), ← last] at tail
  cases tail
  exact ⟨nextLast, prevNext⟩

/-! ### Scanning -/

/-- `do { if (found current) return current; current = next current } while (current != start)`:
the node, `none` after a whole round, and no value when `fuel` runs out. -/
def scan [DecidableEq A] (next : A → A) (found : A → Bool) (start : A) :
    Nat → A → Option (Option A)
  | 0, _ => none
  | fuel + 1, current =>
    if found current then some (some current)
    else
      let current := next current
      if current ≠ start then scan next found start fuel current else some none

theorem scan_from [DecidableEq A] (found : A → Bool) (start : A) : ∀ (ys : List A) (c : A)
    (fuel : Nat), (c :: ys).IsChain (Linked next prev) →
      next ((c :: ys).getLast (List.cons_ne_nil c ys)) = start → start ∉ ys → ys.length < fuel →
        scan next found start fuel c = some ((c :: ys).find? found) := by
  intro ys
  induction ys with
  | nil =>
    intro c fuel _ back _ enough
    obtain ⟨fuel, rfl⟩ := Nat.exists_eq_add_one.mpr enough
    rw [scan, List.find?_singleton]
    split
    · rfl
    · exact if_neg (not_not.mpr back)
  | cons y ys ih =>
    intro c fuel chain back notStart enough
    obtain ⟨fuel, rfl⟩ := Nat.exists_eq_add_one.mpr (Nat.zero_lt_of_lt enough)
    obtain ⟨first, rest⟩ := List.isChain_cons_cons.mp chain
    rw [List.mem_cons, not_or] at notStart
    rw [scan, List.find?_cons]
    split
    · rename_i here
      rw [here]
    · rename_i notHere
      rw [Bool.not_eq_true] at notHere
      rw [notHere, first.1]
      rw [List.getLast_cons (List.cons_ne_nil y ys)] at back
      exact (if_pos (Ne.symm notStart.1)).trans
        (ih y fuel rest back notStart.2 (Nat.lt_of_succ_lt_succ enough))

/-- **A scan of a ring finds the first node that satisfies the condition.** -/
theorem scan_eq [DecidableEq A] (ring : IsRing next prev (h :: xs)) (nodup : (h :: xs).Nodup)
    (found : A → Bool) {fuel : Nat} (enough : xs.length < fuel) :
    scan next found h fuel h = some ((h :: xs).find? found) :=
  scan_from found h xs h fuel ring.chain
    (ring.closed _ (List.getLast?_eq_some_getLast _) h rfl).1 (List.nodup_cons.mp nodup).1 enough

end Ring

/-! ## Pointer trees: nodes reached from a root along paths of indices

`child a i` is the node the `i`-th pointer of `a` leads to, if it is set; `follow child root path`
is the node at the end of a path. In a tree every node is the end of one path only: `UniqueTo` says
so for paths up to a depth, so that the pointers of the deepest nodes may mean something else.

* `follow_congr` — changing pointers of nodes that are not on a path leaves the path alone;
* `follow_link` — hanging a fresh node without children into an unset pointer adds exactly the path
  to it, and `UniqueTo.link`: the tree stays a tree. -/

namespace PathTree

variable {A I : Type*} {child child' : A → I → Option A} {root : A} {depth : Nat}

/-- The node at the end of a path. -/
def follow (child : A → I → Option A) (root : A) (path : List I) : Option A :=
  path.foldlM child root

@[simp] theorem follow_nil : follow child root [] = some root := rfl

theorem follow_cons (i : I) (path : List I) :
    follow child root (i :: path) = (child root i).bind fun a => follow child a path := rfl

theorem follow_append (path path' : List I) :
    follow child root (path ++ path') =
      (follow child root path).bind fun a => follow child a path' := by
  simp only [follow, List.foldlM_append]
  rfl

theorem follow_snoc (path : List I) (i : I) :
    follow child root (path ++ [i]) = (follow child root path).bind fun a => child a i := by
  rw [follow_append]
  congr 1
  funext a
  rw [follow_cons]
  cases child a i <;> rfl

/-- Every node within `depth` is the end of one path only. -/
def UniqueTo (child : A → I → Option A) (root : A) (depth : Nat) : Prop :=
  ∀ p q : List I, ∀ a, p.length ≤ depth → q.length ≤ depth →
    follow child root p = some a → follow child root q = some a → p = q

/-- **A path does not read other nodes.** -/
theorem follow_congr (same : ∀ q : List I, ∀ a, q.length < depth → follow child root q = some a →
      ∀ j, child' a j = child a j) :
    ∀ q : List I, q.length ≤ depth → follow child' root q = follow child root q := by
  intro q
  induction q using List.reverseRecOn with
  | nil => exact fun _ => rfl
  | append_singleton q j ih =>
    intro short
    rw [List.length_append, List.length_singleton] at short
    rw [follow_snoc, follow_snoc, ih (by omega)]
    cases reached : follow child root q with
    | none => rfl
    | some a => exact same q a (by omega) reached j

section Link

variable {p : List I} {i : I} {t f : A}

/-- **Linking a fresh node adds exactly the path to it.** -/
theorem follow_link (unique : UniqueTo child root depth) (short : p.length < depth)
    (reached : follow child root p = some t) (unset : child t i = none)
    (fresh : ∀ q : List I, q.length ≤ depth → follow child root q ≠ some f)
    (set : child' t i = some f) (bare : ∀ j, child' f j = none)
    (same : ∀ q : List I, ∀ a, q.length ≤ depth → follow child root q = some a →
      ∀ j, ¬ (a = t ∧ j = i) → child' a j = child a j) :
    ∀ q : List I, q.length ≤ depth → ∀ a,
      follow child' root q = some a ↔ follow child root q = some a ∨ (q = p ++ [i] ∧ a = f) := by
  intro q
  induction q using List.reverseRecOn with
  | nil => simp
  | append_singleton q j ih =>
    intro long a
    rw [List.length_append, List.length_singleton] at long
    have before := ih (by omega)
    rw [follow_snoc, follow_snoc]
    simp only [Option.bind_eq_some_iff]
    constructor
    · rintro ⟨b, at', next⟩
      rcases (before b).mp at' with old | ⟨rfl, rfl⟩
      · by_cases here : b = t ∧ j = i
        · obtain ⟨rfl, rfl⟩ := here
          rw [set] at next
          have path := unique q p b (by omega) (by omega) old reached
          exact Or.inr ⟨by rw [path], (Option.some.inj next).symm⟩
        · rw [same q b (by omega) old j here] at next
          exact Or.inl ⟨b, old, next⟩
      · rw [bare j] at next
        cases next
    · rintro (⟨b, old, next⟩ | ⟨path, rfl⟩)
      · have other : ¬ (b = t ∧ j = i) := by
          rintro ⟨rfl, rfl⟩
          rw [unset] at next
          cases next
        exact ⟨b, (before b).mpr (Or.inl old), by rw [same q b (by omega) old j other]; exact next⟩
      · obtain ⟨rfl, rfl⟩ := List.append_singleton_inj.mp path
        exact ⟨t, (before t).mpr (Or.inl reached), set⟩

theorem UniqueTo.link (unique : UniqueTo child root depth)
    (fresh : ∀ q : List I, q.length ≤ depth → follow child root q ≠ some f)
    (linked : ∀ q : List I, q.length ≤ depth → ∀ a,
      follow child' root q = some a ↔ follow child root q = some a ∨ (q = p ++ [i] ∧ a = f)) :
    UniqueTo child' root depth := by
  intro q q' a short short' first second
  rcases (linked q short a).mp first with old | ⟨path, rfl⟩
  · rcases (linked q' short' a).mp second with old' | ⟨path', rfl⟩
    · exact unique q q' a short short' old old'
    · exact absurd old (fresh q short)
  · rcases (linked q' short' a).mp second with old' | ⟨path', -⟩
    · exact absurd old' (fresh q' short')
    · rw [path, path']

end Link

end PathTree
