/-
**Queues and scheduling.**

* `conserves` — what goes into a queue comes out of it in order;
* `Waiting.length_le` — in a round-robin queue each other item is taken at most once before an item;
* `Sticky.fair_iff` — a scheduler that stays with the party it serves;
* `scanBest_cases`, `placed_spread`, `placed_even`, `squares_transfer` — the least loaded machine, and
  what placing units there and moving units does to the loads.
-/

import Mathlib.Algebra.BigOperators.Ring.Finset
import Mathlib.Algebra.Order.BigOperators.Group.Finset
import Mathlib.Data.List.Chain
import Mathlib.Data.List.Nodup
import Mathlib.Order.Lattice.Nat
import Mathlib.Tactic.Common
import Mathlib.Tactic.Ring
import ShipOS.Lib.Runs

/-! ## Queues

Elements are pushed at the end and popped at the front. What was there and what was pushed is what was
popped and what is left, in this order (`conserves`). A queue whose pops drop what is behind the
element they return is one as long as nothing is dropped, and only then (`dropping_conserves_iff`). -/

namespace Fifo

open Runs

variable {α : Type*}

/-- A push, or a pop with the element it returns. -/
inductive Op (α : Type*)
  | push (x : α)
  | pop (x : α)

/-- One operation on a queue. -/
inductive Step : List α → Op α → List α → Prop
  | push (q : List α) (x : α) : Step q (.push x) (q ++ [x])
  | pop (q : List α) (x : α) : Step (x :: q) (.pop x) q

/-- One operation on a queue that a pop empties. -/
inductive Dropping : List α → Op α → List α → Prop
  | push (q : List α) (x : α) : Dropping q (.push x) (q ++ [x])
  | pop (q : List α) (x : α) : Dropping (x :: q) (.pop x) []

/-- The elements pushed. -/
def pushed : List (Op α) → List α
  | [] => []
  | .push x :: ops => x :: pushed ops
  | .pop _ :: ops => pushed ops

/-- The elements popped. -/
def popped : List (Op α) → List α
  | [] => []
  | .push _ :: ops => popped ops
  | .pop x :: ops => x :: popped ops

/-- How many elements are dropped, from a queue of length `n`. -/
def dropped : Nat → List (Op α) → Nat
  | _, [] => 0
  | n, .push _ :: ops => dropped (n + 1) ops
  | n, .pop _ :: ops => (n - 1) + dropped 0 ops

/-- **First in, first out, and nothing lost.** -/
theorem conserves {q q' : List α} {ops : List (Op α)} (run : Run Step q ops q') :
    q ++ pushed ops = popped ops ++ q' := by
  induction run with
  | nil q => rw [pushed, popped, List.append_nil, List.nil_append]
  | cons step _ ih =>
    cases step with
    | push q x => rw [pushed, popped, ← ih, ← List.append_cons]
    | pop q x => rw [pushed, popped, List.cons_append, List.cons_append, ih]

/-- The account of a queue that drops elements. -/
theorem account {q q' : List α} {ops : List (Op α)} (run : Run Dropping q ops q') :
    q.length + (pushed ops).length = (popped ops).length + q'.length + dropped q.length ops := by
  induction run with
  | nil q => simp [pushed, popped, dropped]
  | cons step _ ih =>
    cases step with
    | push q x =>
      rw [List.length_append, List.length_singleton] at ih
      rw [pushed, popped, dropped, List.length_cons]
      omega
    | pop q x =>
      rw [List.length_nil] at ih
      rw [pushed, popped, dropped, List.length_cons, List.length_cons]
      omega

/-- **A queue that drops nothing is a queue.** -/
theorem keeping {q q' : List α} {ops : List (Op α)} (run : Run Dropping q ops q') :
    dropped q.length ops = 0 → Run Step q ops q' := by
  induction run with
  | nil q => exact fun _ => .nil q
  | cons step _ ih =>
    cases step with
    | push _ x =>
      intro nothing
      refine .cons (.push _ x) (ih ?_)
      rwa [List.length_append, List.length_singleton]
    | pop q x =>
      intro nothing
      rw [dropped, List.length_cons] at nothing
      obtain rfl : q = [] := List.length_eq_zero_iff.mp (by omega)
      exact .cons (.pop [] x) (ih (by rw [List.length_nil]; omega))

/-- **Order and elements are kept exactly if nothing is dropped.** -/
theorem dropping_conserves_iff {q q' : List α} {ops : List (Op α)} (run : Run Dropping q ops q') :
    q ++ pushed ops = popped ops ++ q' ↔ dropped q.length ops = 0 := by
  constructor
  · intro same
    have lengths := congrArg List.length same
    rw [List.length_append, List.length_append] at lengths
    have counts := account run
    omega
  · exact fun nothing => conserves (keeping run nothing)

end Fifo

/-! ## Waiting in a round-robin queue

A queue of items, each with a key. Its operations append an item, drop the items of a key, and take
the first item of some kind, which turns the queue behind that item. `Waiting q t bound returned`
says of a key `t` in the queue that was not taken since there were at most `bound` items ahead of it:
the keys taken since are distinct and no longer ahead of it, and each taken item is one less ahead.

* `Waiting.push`, `Waiting.drop`, `Waiting.take` — the three operations;
* `Waiting.length_le` — so `t` is taken after at most `bound` others. -/

namespace RoundRobin

variable {N T : Type*} {q pre post : List (N × T)} {t : T} {bound : Nat} {returned : List T}

/-- The key `t` is in the queue and not taken yet, and `returned` were taken since. -/
structure Waiting (q : List (N × T)) (t : T) (bound : Nat) (returned : List T) : Prop where
  distinct : returned.Nodup
  pending : t ∉ returned
  ahead : ∃ pre x post, q = pre ++ (x, t) :: post ∧ (∀ y ∈ pre, y.2 ∉ returned) ∧
    returned.length + pre.length ≤ bound

theorem waiting_start {x : N} : Waiting (pre ++ (x, t) :: post) t pre.length [] :=
  ⟨List.nodup_nil, List.not_mem_nil, pre, x, post, rfl, fun _ _ => List.not_mem_nil, by simp⟩

theorem Waiting.mem (waiting : Waiting q t bound returned) : ∃ x, (x, t) ∈ q := by
  obtain ⟨pre, x, post, rfl, -⟩ := waiting.ahead
  exact ⟨x, List.mem_append_right _ List.mem_cons_self⟩

/-- As long as `t` waits, no more items were taken than were ahead of it. -/
theorem Waiting.length_le (waiting : Waiting q t bound returned) : returned.length ≤ bound := by
  obtain ⟨pre, x, post, -, -, room⟩ := waiting.ahead
  exact Nat.le_of_add_right_le room

theorem Waiting.push (waiting : Waiting q t bound returned) (y : N × T) :
    Waiting (q ++ [y]) t bound returned := by
  obtain ⟨pre, x, post, rfl, apart, room⟩ := waiting.ahead
  exact ⟨waiting.distinct, waiting.pending, pre, x, post ++ [y], by simp, apart, room⟩

theorem Waiting.drop [DecidableEq T] (waiting : Waiting q t bound returned) {u : T}
    (other : t ≠ u) : Waiting (q.filter fun y => y.2 ≠ u) t bound returned := by
  obtain ⟨pre, x, post, rfl, apart, room⟩ := waiting.ahead
  refine ⟨waiting.distinct, waiting.pending, pre.filter (fun y => y.2 ≠ u), x,
    post.filter (fun y => y.2 ≠ u), ?_, fun y member => apart y (List.mem_filter.mp member).1, ?_⟩
  · rw [List.filter_append, List.filter_cons_of_pos (by simpa using other)]
  · have := List.length_filter_le (fun y => decide (y.2 ≠ u)) pre
    omega

/-- **The item taken is `t` itself or one that was ahead of it.** -/
theorem Waiting.take (waiting : Waiting q t bound returned) {y : N × T}
    (here : q = pre ++ y :: post) (once : ∀ z ∈ post, z.2 ≠ y.2) (skipped : ∀ z ∈ pre, z.2 ≠ t) :
    y.2 = t ∨ Waiting (post ++ (pre ++ [y])) t bound (returned ++ [y.2]) := by
  obtain ⟨first, x, later, order, apart, room⟩ := waiting.ahead
  rcases List.append_eq_append_iff.mp (here.symm.trans order) with
    ⟨between, rfl, rest⟩ | ⟨between, same, rest⟩
  · cases between with
    | nil =>
      rw [List.nil_append, List.cons.injEq] at rest
      exact .inl (congrArg Prod.snd rest.1)
    | cons z between =>
      rw [List.cons_append, List.cons.injEq] at rest
      obtain ⟨rfl, rfl⟩ := rest
      have new : y.2 ∉ returned :=
        apart y (List.mem_append_right _ List.mem_cons_self)
      refine .inr ⟨?_, ?_, between, x, later ++ (pre ++ [y]), by simp, fun z member => ?_, ?_⟩
      · rw [← List.concat_eq_append]
        exact waiting.distinct.concat new
      · rw [List.mem_append, List.mem_singleton, not_or]
        exact ⟨waiting.pending, once (x, t) (List.mem_append_right _ List.mem_cons_self)⟩
      · rw [List.mem_append, List.mem_singleton, not_or]
        exact ⟨apart z (List.mem_append_right _ (List.mem_cons_of_mem _ member)),
          once z (List.mem_append_left _ member)⟩
      · simp only [List.length_append, List.length_cons, List.length_nil] at room ⊢
        omega
  · cases between with
    | nil =>
      rw [List.nil_append, List.cons.injEq] at rest
      exact .inl (congrArg Prod.snd rest.1.symm)
    | cons z between =>
      rw [List.cons_append, List.cons.injEq] at rest
      refine absurd rfl (skipped (x, t) ?_)
      rw [same, rest.1]
      exact List.mem_append_right _ List.mem_cons_self

end RoundRobin

/-! ## Time slices of a scheduler that stays

A scheduler is asked again and again; each call serves one party, and at each call some parties are
ready. `Fair` bounds how often in a row one party is served while another is ready all the time.

A scheduler that serves ready parties only, and stays with the party it served as long as that one is
ready (`Sticky`), is fair exactly when every party it serves stops being ready in time
(`Sticky.fair_iff`): it does nothing for fairness itself. -/

namespace Slices

variable {C P : Type*} (served : C → P) (ready : C → P → Prop) (quota : Nat)

/-- **Never more than `quota` calls in a row** serve one party while another is ready at each of
them. -/
def Fair (calls : List C) : Prop :=
  ∀ slice, slice <:+: calls → slice.length = quota + 1 → ∀ p, (∀ c ∈ slice, served c = p) →
    ∀ q, q ≠ p → ¬ ∀ c ∈ slice, ready c q

/-- A party that is served while another is ready at that call and the next `quota` ones is not ready
at one of these. -/
def Released (calls : List C) : Prop :=
  ∀ c next, (c :: next) <:+: calls → next.length = quota → ∀ q, q ≠ served c →
    (∀ d ∈ c :: next, ready d q) → ¬ ∀ d ∈ next, ready d (served c)

/-- **A scheduler that stays.** -/
structure Sticky (calls : List C) : Prop where
  only : ∀ c ∈ calls, ready c (served c)
  stays : calls.IsChain fun c d => ready d (served c) → served d = served c

variable {served ready quota}

/-- It stays through as many calls as the party is ready at. -/
theorem served_eq : ∀ {next : List C} {c : C},
    (c :: next).IsChain (fun c d => ready d (served c) → served d = served c) →
      (∀ d ∈ next, ready d (served c)) → ∀ d ∈ next, served d = served c := by
  intro next
  induction next with
  | nil => exact fun _ _ => nofun
  | cons d next ih =>
    intro c chain still
    obtain ⟨stays, rest⟩ := List.isChain_cons_cons.mp chain
    obtain ⟨here, later⟩ := List.forall_mem_cons.mp still
    have same := stays here
    refine List.forall_mem_cons.mpr ⟨same, ?_⟩
    rw [← same] at later ⊢
    exact ih rest later

theorem Sticky.fair_iff {calls : List C} (sticky : Sticky served ready calls) :
    Fair served ready quota calls ↔ Released served ready quota calls := by
  constructor
  · intro fair c next part length q other waits still
    have chain := List.IsChain.infix sticky.stays part
    have same := served_eq chain still
    refine fair (c :: next) part (by rw [List.length_cons, length]) (served c) ?_ q other waits
    exact List.forall_mem_cons.mpr ⟨rfl, same⟩
  · intro released slice part length p same q other waits
    obtain ⟨c, next, rfl⟩ := List.exists_cons_of_length_eq_add_one length
    obtain ⟨first, rest⟩ := List.forall_mem_cons.mp same
    subst first
    refine released c next part (Nat.succ.inj length) q other waits fun d member => ?_
    rw [← rest d member]
    exact sticky.only d (part.subset (List.mem_cons_of_mem _ member))

end Slices

/-! ## Loads of machines: the least loaded one, greedy placement and transfers

`on` are the machines in use and `load` their loads.

* `scanBest` — the loop that remembers the first machine whose key is best so far, and
  `scanBest_cases`: what it ends with;
* `spread` — the largest load minus the smallest. Placing one unit after another on a least loaded
  machine keeps the spread at most one, or as it was (`placed_spread`), and evens the loads out once
  the gaps below the largest load are filled (`placed_even`);
* `squares_transfer` — a unit moved from a machine to one with a load smaller by two or more makes the
  sum of the squares of the loads smaller. -/

namespace Balancing

open Runs

variable {ι : Type*}

/-! ### The loop that remembers the best -/

section Scan

variable {K : Type*} (better : K → K → Prop) [DecidableRel better] (p : ι → Prop) [DecidablePred p]
  (key : ι → K)

/-- One round: `if (p(i) && better(key(i), best)) { best = key(i); at = i; }`. -/
def scanBest (best : K × ι) (i : ι) : K × ι :=
  if p i ∧ better (key i) best.1 then (key i, i) else best

/-- `i` is the first of the list with the best key. -/
structure FirstBest (l : List ι) (i : ι) : Prop where
  holds : p i
  split : ∃ pre post, l = pre ++ i :: post ∧ (∀ j ∈ pre, p j → better (key i) (key j)) ∧
    ∀ j ∈ post, p j → ¬ better (key j) (key i)

/-- A strict order in which what is not better than `b` is beaten by all that is better than `b`. -/
structure Ranking : Prop where
  asymm : ∀ {a b : K}, better a b → ¬ better b a
  cut : ∀ {a b c : K}, better a b → ¬ better c b → better a c

variable {better p key}

omit [DecidableRel better] in
theorem Ranking.trans (ranking : Ranking better) {a b c : K} (first : better a b)
    (second : better b c) : better a c :=
  ranking.cut first (ranking.asymm second)

/-- **What the loop ends with**: the start, when nothing was better, or the first best. -/
theorem scanBest_cases (ranking : Ranking better) (p : ι → Prop) [DecidablePred p] (key : ι → K)
    (top : K) (d : ι) (l : List ι) :
    ((∀ j ∈ l, p j → ¬ better (key j) top) ∧ l.foldl (scanBest better p key) (top, d) = (top, d)) ∨
      ∃ i, FirstBest better p key l i ∧ better (key i) top ∧
        l.foldl (scanBest better p key) (top, d) = (key i, i) := by
  induction l using List.reverseRecOn with
  | nil => exact .inl ⟨List.forall_mem_nil _, rfl⟩
  | append_singleton l k ih =>
    rw [List.foldl_append, List.foldl_cons, List.foldl_nil]
    rcases ih with ⟨notBetter, result⟩ | ⟨i, first, under, result⟩
    · rw [result, scanBest]
      by_cases takes : p k ∧ better (key k) top
      · refine .inr ⟨k, ⟨takes.1, l, [], rfl, fun j member holds => ?_, List.forall_mem_nil _⟩,
          takes.2, if_pos takes⟩
        exact ranking.cut takes.2 (notBetter j member holds)
      · refine .inl ⟨List.forall_mem_append.mpr ⟨notBetter, List.forall_mem_singleton.mpr ?_⟩,
          if_neg takes⟩
        exact fun holds below => takes ⟨holds, below⟩
    · obtain ⟨pre, post, split, before, after⟩ := first.split
      rw [result, scanBest]
      by_cases takes : p k ∧ better (key k) (key i)
      · refine .inr ⟨k, ⟨takes.1, l, [], rfl, fun j member holds => ?_, List.forall_mem_nil _⟩,
          ranking.trans takes.2 under, if_pos takes⟩
        rw [split] at member
        rcases List.mem_append.mp member with early | late
        · exact ranking.trans takes.2 (before j early holds)
        · rcases List.mem_cons.mp late with rfl | late
          · exact takes.2
          · exact ranking.cut takes.2 (after j late holds)
      · refine .inr ⟨i, ⟨first.holds, pre, post ++ [k], ?_, before, ?_⟩, under, if_neg takes⟩
        · rw [split, List.append_assoc, List.cons_append]
        · refine List.forall_mem_append.mpr ⟨after, List.forall_mem_singleton.mpr fun holds best => ?_⟩
          exact takes ⟨holds, best⟩

omit [DecidableRel better] [DecidablePred p] in
/-- Nothing in the list is better than the first best. -/
theorem FirstBest.best (ranking : Ranking better) {l : List ι} {i : ι}
    (first : FirstBest better p key l i) : ∀ j ∈ l, p j → ¬ better (key j) (key i) := by
  obtain ⟨pre, post, rfl, before, after⟩ := first.split
  intro j member holds
  rcases List.mem_append.mp member with early | late
  · exact ranking.asymm (before j early holds)
  · rcases List.mem_cons.mp late with rfl | late
    · exact fun self => ranking.asymm self self
    · exact after j late holds

end Scan

/-! ### The spread -/

variable {on : Finset ι} (nonempty : on.Nonempty) {load load' : ι → ℕ}

/-- The largest load minus the smallest. -/
def spread (load : ι → ℕ) : ℕ := on.sup' nonempty load - on.inf' nonempty load

theorem spread_le_iff {d : ℕ} : spread nonempty load ≤ d ↔ ∀ i ∈ on, ∀ j ∈ on, load i ≤ load j + d := by
  obtain ⟨top, memberTop, largest⟩ := Finset.exists_mem_eq_sup' nonempty load
  obtain ⟨low, memberLow, smallest⟩ := Finset.exists_mem_eq_inf' nonempty load
  rw [spread, largest, smallest]
  constructor
  · intro close i memberI j memberJ
    have above : load i ≤ load top := largest ▸ Finset.le_sup' load memberI
    have below : load low ≤ load j := smallest ▸ Finset.inf'_le load memberJ
    omega
  · intro close
    have := close top memberTop low memberLow
    omega

/-! ### Greedy placement -/

variable [DecidableEq ι]

/-- One unit is placed on a machine with the least load. -/
structure Place (on : Finset ι) (load : ι → ℕ) (i : ι) (load' : ι → ℕ) : Prop where
  inUse : i ∈ on
  least : ∀ j ∈ on, load i ≤ load j
  effect : load' = Function.update load i (load i + 1)

theorem Place.load_eq {i : ι} (place : Place on load i load') (j : ι) :
    load' j = if j = i then load i + 1 else load j := by
  rw [place.effect, Function.update_apply]

/-- One placement keeps the spread, or leaves it at most one. -/
theorem Place.spread_le {i : ι} (place : Place on load i load') :
    spread nonempty load' ≤ max (spread nonempty load) 1 := by
  have close := (spread_le_iff nonempty).mp (le_refl (spread nonempty load))
  rw [spread_le_iff]
  intro j memberJ k memberK
  have apart := close j memberJ k memberK
  have above := close j memberJ i place.inUse
  have least := place.least k memberK
  rw [place.load_eq j, place.load_eq k]
  split
  · split <;> omega
  · split <;> omega

/-- **Greedy placement keeps the spread**, or leaves it at most one. -/
theorem placed_spread {is : List ι} (run : Run (Place on) load is load') :
    spread nonempty load' ≤ max (spread nonempty load) 1 := by
  induction run with
  | nil load => exact le_max_left _ _
  | cons place _ ih =>
    have step := place.spread_le nonempty
    omega

/-- A sum after one component changed. -/
theorem sum_update (f : ℕ → ℕ) (load : ι → ℕ) {i : ι} (member : i ∈ on) (v : ℕ) :
    ∑ x ∈ on, f (Function.update load i v x) + f (load i) = ∑ x ∈ on, f (load x) + f v := by
  rw [← Finset.add_sum_erase on (fun x => f (load x)) member,
    ← Finset.add_sum_erase on (fun x => f (Function.update load i v x)) member]
  have others : ∑ x ∈ on.erase i, f (Function.update load i v x) = ∑ x ∈ on.erase i, f (load x) :=
    Finset.sum_congr rfl fun x inside => by rw [Function.update_of_ne (Finset.ne_of_mem_erase inside)]
  rw [others, Function.update_self]
  omega

/-- Placements that fill all gaps below `top` leave the loads even. -/
theorem placed_fills {top : ℕ} {is : List ι} (run : Run (Place on) load is load') :
    (∀ i ∈ on, load i ≤ top) → ∑ i ∈ on, (top - load i) ≤ is.length → spread nonempty load' ≤ 1 := by
  induction run with
  | nil load =>
    intro below filled
    have full := Finset.sum_eq_zero_iff.mp (Nat.le_zero.mp filled)
    rw [spread_le_iff]
    intro i memberI j memberJ
    have := below i memberI
    have := full j memberJ
    omega
  | @cons load mid load' i is place rest ih =>
    intro below filled
    by_cases gap : load i < top
    · refine ih (fun j memberJ => ?_) ?_
      · have := below j memberJ
        rw [place.load_eq]
        split <;> omega
      · have sum := sum_update (fun x => top - x) load place.inUse (load i + 1)
        rw [← place.effect] at sum
        rw [List.length_cons] at filled
        omega
    · -- No gap is left: the loads are equal, and stay even from here on.
      have even : spread nonempty load ≤ 0 := by
        rw [spread_le_iff]
        intro j memberJ k memberK
        have := below j memberJ
        have := place.least k memberK
        omega
      have kept := placed_spread nonempty (.cons place rest)
      omega

/-- **Greedy placement evens the loads out** once it has filled the gaps below the largest load. -/
theorem placed_even {is : List ι} (run : Run (Place on) load is load')
    (filled : ∑ i ∈ on, (on.sup' nonempty load - load i) ≤ is.length) : spread nonempty load' ≤ 1 :=
  placed_fills nonempty run (fun _ member => Finset.le_sup' load member) filled

/-! ### Transfers -/

/-- A unit moved to a machine with a load smaller by two or more. -/
theorem squares_transfer {i j : ι} (memberI : i ∈ on) (memberJ : j ∈ on)
    (gap : load j + 2 ≤ load i) :
    ∑ x ∈ on, Function.update (Function.update load i (load i - 1)) j (load j + 1) x ^ 2 <
      ∑ x ∈ on, load x ^ 2 := by
  have different : j ≠ i := by
    rintro rfl
    omega
  have first := sum_update (fun x => x ^ 2) load memberI (load i - 1)
  have second := sum_update (fun x => x ^ 2) (Function.update load i (load i - 1)) memberJ
    (load j + 1)
  rw [Function.update_of_ne different] at second
  obtain ⟨k, more⟩ := Nat.exists_eq_add_of_le gap
  have less : load i - 1 = load j + 1 + k := by omega
  have squares : (load j + 1 + k) ^ 2 + (load j + 1) ^ 2 + 2 * (k + 1) =
      load i ^ 2 + load j ^ 2 := by
    rw [more]
    ring
  rw [less] at first second ⊢
  omega

end Balancing
