/-
**Tables that change, and caches of them.**

* `fillRange_succ` — a loop that sets consecutive keys, one a round;
* `Exec.coherent` — what processors have cached agrees with the table, but for the keys that have
  changed since they were last dropped.
-/

import Mathlib.Data.BitVec
import Mathlib.Data.Set.Basic
import Mathlib.Logic.Function.Basic
import Mathlib.Tactic.Common

/-! ## Maps from bit vectors, changed on a range of consecutive keys

`fillRange m k n g` is the map `m` with the `n` keys from `k` on, modulo the width, set to `g` of
their offset. A loop that sets one key a round computes it (`fillRange_succ`), also when the range
goes round the key space more than once. -/

namespace KeyRange

variable {w : Nat} {A : Type*}

def fillRange (m : BitVec w → A) (k : BitVec w) (n : Nat) (g : BitVec w → A) : BitVec w → A :=
  fun v => if (v - k).toNat < n then g (v - k) else m v

variable (m : BitVec w → A) (k : BitVec w) (n : Nat) (g : BitVec w → A)

@[simp] theorem fillRange_zero : fillRange m k 0 g = m := by
  funext v
  exact if_neg (Nat.not_lt_zero _)

theorem offset_step {v : BitVec w} (other : v ≠ k) :
    (v - (k + 1)).toNat < n ↔ (v - k).toNat < n + 1 := by
  have nonzero : v - k ≠ 0 := sub_ne_zero.mpr other
  have positive : (v - k).toNat ≠ 0 := fun zero => nonzero (BitVec.eq_of_toNat_eq zero)
  have wide : 0 < w := by
    rcases Nat.eq_zero_or_pos w with rfl | wide
    · exact absurd (Subsingleton.elim _ _) other
    · exact wide
  have one : (1 : BitVec w).toNat = 1 := BitVec.toNat_one wide
  have before : (v - (k + 1)).toNat = (v - k).toNat - 1 := by
    rw [sub_add_eq_sub_sub, BitVec.toNat_sub_of_le, one]
    rw [BitVec.le_def, one]
    omega
  omega

/-- **One key set, then the range after it.** -/
theorem fillRange_succ :
    fillRange (Function.update m k (g 0)) (k + 1) n (fun i => g (i + 1)) =
      fillRange m k (n + 1) g := by
  funext v
  have shift : v - (k + 1) + 1 = v - k := by
    rw [sub_add_eq_sub_sub, sub_add_cancel]
  by_cases here : v = k
  · subst here
    have first : (v - v).toNat < n + 1 := by
      rw [sub_self]
      exact Nat.succ_pos n
    rw [fillRange, fillRange, if_pos first, shift, sub_self, Function.update_self, ite_self]
  · simp only [fillRange, offset_step k n here, shift, Function.update_of_ne here]

theorem fillRange_fillRange (g' : BitVec w → A) :
    fillRange (fillRange m k n g) k n g' = fillRange m k n g' := by
  funext v
  rw [fillRange, fillRange, fillRange]
  split
  · rfl
  · rfl

/-- A range filled with one value leaves the map as it was exactly when it held that value. -/
theorem fillRange_const_eq_iff (a : A) :
    fillRange m k n (fun _ => a) = m ↔ ∀ v, (v - k).toNat < n → m v = a := by
  refine ⟨fun same v inside => ?_, fun held => funext fun v => ?_⟩
  · rw [← same]
    exact if_pos inside
  · by_cases inside : (v - k).toNat < n
    · rw [held v inside]
      exact if_pos inside
    · exact if_neg inside

end KeyRange

/-! ## Caches of a table that changes

Processors look keys up in a shared table and keep what they found. Operations write the table and
drop keys from the cache of one processor; between any two of them every processor may look keys up
again and may lose what it had. A cached entry is stale when the table has changed since.

* `Exec` — the operations, with lookups and evictions of all processors in between;
* `pending` — the keys whose entry has changed since the processor last dropped them;
* `Exec.coherent` — a cache agrees with the table at all keys that are not pending;
* `Touches`, `Quiet` — operations that leave pending keys of a given set only, and such that leave
  none to the processor that executes them. -/

namespace Cache

variable {C M K T : Type*}

/-- A write of the table, or a key dropped from the cache of a processor. -/
inductive Op (C M K : Type*)
  | write (table : M)
  | drop (owner : C) (key : K)

/-- The table, and what each processor has cached. -/
structure State (C M K T : Type*) where
  table : M
  cached : C → K → Option T

variable (lookup : M → K → Option T)

/-- A cache after any lookups and evictions. -/
def Refilled (table : M) (old new : K → Option T) : Prop :=
  ∀ k, new k = old k ∨ new k = none ∨ new k = lookup table k

/-- The table after operations. -/
def after : M → List (Op C M K) → M
  | m, [] => m
  | _, .write table :: ops => after table ops
  | m, .drop _ _ :: ops => after m ops

theorem after_append (xs ys : List (Op C M K)) : ∀ m, after m (xs ++ ys) = after (after m xs) ys := by
  induction xs with
  | nil => exact fun _ => rfl
  | cons op xs ih =>
    intro m
    cases op with
    | write table => exact ih table
    | drop owner key => exact ih m

theorem after_drops (c : C) (m : M) (keys : List K) : after m (keys.map (Op.drop c)) = m := by
  induction keys with
  | nil => rfl
  | cons key keys ih => exact ih

section Executions

variable [DecidableEq C] [DecidableEq K]

/-- **The operations in order**, with lookups and evictions before, between and after them. -/
inductive Exec : State C M K T → List (Op C M K) → State C M K T → Prop
  | done (s : State C M K T) : Exec s [] s
  | refill {s u : State C M K T} {ops : List (Op C M K)} {cached : C → K → Option T}
      (refilled : ∀ c, Refilled lookup s.table (s.cached c) (cached c))
      (rest : Exec ⟨s.table, cached⟩ ops u) : Exec s ops u
  | write {s u : State C M K T} {ops : List (Op C M K)} {table : M}
      (rest : Exec ⟨table, s.cached⟩ ops u) : Exec s (.write table :: ops) u
  | drop {s u : State C M K T} {ops : List (Op C M K)} {c : C} {k : K}
      (rest : Exec ⟨s.table,
        Function.update s.cached c (Function.update (s.cached c) k none)⟩ ops u) :
      Exec s (.drop c k :: ops) u

/-- Lookups and evictions after the last operation. -/
theorem Exec.refilled {lookup : M → K → Option T} {s u : State C M K T} {ops : List (Op C M K)}
    (exec : Exec lookup s ops u) {cached : C → K → Option T}
    (refilled : ∀ c, Refilled lookup u.table (u.cached c) (cached c)) :
    Exec lookup s ops ⟨u.table, cached⟩ := by
  induction exec with
  | done s => exact .refill refilled (.done _)
  | refill first _ ih => exact .refill first (ih refilled)
  | write _ ih => exact .write (ih refilled)
  | drop _ ih => exact .drop (ih refilled)

end Executions

/-! ### Pending keys -/

section Pending

variable [DecidableEq C]

/-- **The keys of processor `c` at which a cached entry may be stale**: the entry has changed, and
`c` has not dropped the key since. A key that had no entry was not cached. -/
def pending (c : C) : M → Set K → List (Op C M K) → Set K
  | _, P, [] => P
  | m, P, .write table :: ops =>
    pending c table (P ∪ {k | lookup table k ≠ lookup m k ∧ lookup m k ≠ none}) ops
  | m, P, .drop owner key :: ops => pending c m (if owner = c then P \ {key} else P) ops

variable {lookup}

theorem pending_append (c : C) (xs ys : List (Op C M K)) : ∀ (m : M) (P : Set K),
    pending lookup c m P (xs ++ ys) =
      pending lookup c (after m xs) (pending lookup c m P xs) ys := by
  induction xs with
  | nil => exact fun _ _ => rfl
  | cons op xs ih =>
    intro m P
    cases op with
    | write table => exact ih table _
    | drop owner key => exact ih m _

theorem pending_drops (c : C) (m : M) (keys : List K) : ∀ P : Set K,
    pending lookup c m P (keys.map (Op.drop c)) ⊆ {k | k ∈ P ∧ k ∉ keys} := by
  induction keys with
  | nil =>
    intro P k member
    exact ⟨member, List.not_mem_nil⟩
  | cons key keys ih =>
    intro P k member
    rw [List.map_cons, pending, if_pos rfl] at member
    obtain ⟨⟨inside, other⟩, later⟩ := ih _ member
    exact ⟨inside, List.not_mem_cons_of_ne_of_not_mem other later⟩

/-- The cached entries agree with the table, but at the keys of `P`. -/
def Agrees (lookup : M → K → Option T) (table : M) (cached : K → Option T) (P : Set K) : Prop :=
  ∀ k e, cached k = some e → k ∈ P ∨ lookup table k = some e

theorem Agrees.refilled {table : M} {old new : K → Option T} {P : Set K}
    (agrees : Agrees lookup table old P) (refilled : Refilled lookup table old new) :
    Agrees lookup table new P := by
  intro k e found
  rcases refilled k with same | lost | fresh
  · exact agrees k e (same.symm.trans found)
  · rw [lost] at found
    cases found
  · exact .inr (fresh.symm.trans found)

/-- A write makes the keys pending whose entry it changes. -/
theorem Agrees.write {m table : M} {cached : K → Option T} {P : Set K}
    (agrees : Agrees lookup m cached P) :
    Agrees lookup table cached (P ∪ {k | lookup table k ≠ lookup m k ∧ lookup m k ≠ none}) := by
  intro k e found
  rcases agrees k e found with stale | exact
  · exact .inl (.inl stale)
  · by_cases same : lookup table k = lookup m k
    · exact .inr (same.trans exact)
    · exact .inl (.inr ⟨same, exact.trans_ne (Option.some_ne_none e)⟩)

theorem Agrees.drop [DecidableEq K] {m : M} {cached : K → Option T} {P : Set K}
    (agrees : Agrees lookup m cached P) (key : K) :
    Agrees lookup m (Function.update cached key none) (P \ {key}) := by
  intro k e found
  by_cases here : k = key
  · rw [here, Function.update_self] at found
    cases found
  · rw [Function.update_of_ne here] at found
    exact (agrees k e found).imp_left fun stale => ⟨stale, here⟩

/-- **A cache agrees with the table at all keys that are not pending.** -/
theorem Exec.coherent [DecidableEq K] {s u : State C M K T} {ops : List (Op C M K)}
    (exec : Exec lookup s ops u) : ∀ {P : C → Set K},
      (∀ c, Agrees lookup s.table (s.cached c) (P c)) →
        ∀ c, Agrees lookup u.table (u.cached c) (pending lookup c s.table (P c) ops) := by
  induction exec with
  | done s => exact fun agrees => agrees
  | refill refilled _ ih => exact fun agrees => ih fun c => (agrees c).refilled (refilled c)
  | write _ ih => exact fun agrees => ih fun c => (agrees c).write
  | @drop s u ops owner key _ ih =>
    intro P agrees c
    refine ih (P := fun c => if owner = c then P c \ {key} else P c) (fun c => ?_) c
    by_cases mine : owner = c
    · subst mine
      rw [if_pos rfl]
      dsimp only
      rw [Function.update_self]
      exact (agrees owner).drop key
    · rw [if_neg mine]
      dsimp only
      rw [Function.update_of_ne (Ne.symm mine)]
      exact agrees c

/-! ### What operations leave pending -/

variable (lookup)

/-- Operations that take the table from `m` to `m'` and leave no pending key outside `names`. -/
structure Touches (names : Set K) (m : M) (ops : List (Op C M K)) (m' : M) : Prop where
  ends : after m ops = m'
  others : ∀ (d : C) (P : Set K), pending lookup d m P ops ⊆ P ∪ names

/-- Operations of processor `c` that leave no pending key to `c` itself. -/
structure Quiet (c : C) (names : Set K) (m : M) (ops : List (Op C M K)) (m' : M) : Prop
    extends Touches lookup names m ops m' where
  own : ∀ P : Set K, pending lookup c m P ops ⊆ P

variable {lookup} {c : C} {names names' : Set K} {m m' m'' : M} {xs ys ops : List (Op C M K)}

theorem Touches.nil (names : Set K) (m : M) : Touches (C := C) lookup names m [] m :=
  ⟨rfl, fun _ _ => Set.subset_union_left⟩

theorem Touches.append (first : Touches lookup names m xs m')
    (second : Touches lookup names m' ys m'') :
    Touches lookup names m (xs ++ ys) m'' := by
  refine ⟨by rw [after_append, first.ends, second.ends], fun d P => ?_⟩
  rw [pending_append, first.ends]
  exact (second.others d _).trans (Set.union_subset (first.others d P) Set.subset_union_right)

theorem Touches.mono (touches : Touches lookup names m ops m') (more : names ⊆ names') :
    Touches lookup names' m ops m' :=
  ⟨touches.ends, fun d P => (touches.others d P).trans (Set.union_subset_union_right P more)⟩

/-- A write that changes entries of `names` only, but for keys that had none. -/
theorem Touches.write (same : ∀ k, k ∉ names → lookup m k ≠ none → lookup m' k = lookup m k) :
    Touches (C := C) lookup names m [.write m'] m' := by
  refine ⟨rfl, fun d P => Set.union_subset_union_right P ?_⟩
  rintro k ⟨changed, had⟩
  by_contra outside
  exact changed (same k outside had)

theorem Touches.quiet (touches : Touches lookup ∅ m ops m') : Quiet lookup c ∅ m ops m' :=
  ⟨touches, fun P => (touches.others c P).trans (Set.union_empty P).subset⟩

/-- **Dropping every key that was touched.** -/
theorem Touches.flushed (touches : Touches lookup names m ops m') (keys : List K)
    (all : ∀ k ∈ names, k ∈ keys) : Quiet lookup c names m (ops ++ keys.map (Op.drop c)) m' := by
  have drops : ∀ d (P : Set K), pending lookup d m' P (keys.map (Op.drop c)) ⊆ P := by
    intro d P
    by_cases mine : c = d
    · subst mine
      exact fun k member => (pending_drops c m' keys P member).1
    · clear all
      induction keys with
      | nil => exact subset_rfl
      | cons key keys ih =>
        rw [List.map_cons, pending, if_neg mine]
        exact ih
  refine ⟨⟨by rw [after_append, touches.ends, after_drops], fun d P => ?_⟩, fun P => ?_⟩
  · rw [pending_append, touches.ends]
    exact (drops d _).trans (touches.others d P)
  · rw [pending_append, touches.ends]
    intro k member
    obtain ⟨stale, kept⟩ := pending_drops c m' keys _ member
    exact (touches.others c P stale).resolve_right fun named => kept (all k named)

theorem Quiet.nil (c : C) (names : Set K) (m : M) : Quiet lookup c names m [] m :=
  ⟨Touches.nil names m, fun _ => subset_rfl⟩

theorem Quiet.append (first : Quiet lookup c names m xs m') (second : Quiet lookup c names m' ys m'') :
    Quiet lookup c names m (xs ++ ys) m'' := by
  refine ⟨first.toTouches.append second.toTouches, fun P => ?_⟩
  rw [pending_append, first.ends]
  exact (second.own _).trans (first.own P)

theorem Quiet.mono (quiet : Quiet lookup c names m ops m') (more : names ⊆ names') :
    Quiet lookup c names' m ops m' :=
  ⟨quiet.toTouches.mono more, quiet.own⟩

end Pending

end Cache
