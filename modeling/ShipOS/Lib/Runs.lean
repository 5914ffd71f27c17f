/-
**Runs of systems of several parties.**

* `Run` — runs of a labelled transition system, with the rules for what every step keeps (`Run.keeps`)
  and for what every step refines (`Run.simulates`);
* `Fine` — straight-line code of one party while the others interfere;
* `exists_unblocked`, `completes` — parties that wait for one another get to the end;
* `interleaved_eqOn` — parties with separate regions of a memory;
* `Shares.run` — parties that take pages from one pool and give them back.
-/

import Mathlib.Algebra.Order.BigOperators.Group.Finset
import Mathlib.Data.Fintype.Card
import Mathlib.Data.Set.Basic
import Mathlib.Data.Set.Finite.Lattice
import Mathlib.Data.Set.Function
import Mathlib.Logic.Function.Basic
import Mathlib.Order.Bounds.Basic
import Mathlib.Tactic.Common

/-! ## Runs of a labelled transition system

`Run step s es t` — the events `es` lead from `s` to `t`, one step each. A property that every step
keeps holds in every state a run reaches (`Run.keeps`), and a run whose steps each refine an
abstract operation refines their sequence (`Run.simulates`). A step of one party changes one component
of a family: what holds of a component is new or was there before (`update_cases`). -/

namespace Runs

variable {S E : Type*} {step : S → E → S → Prop}

/-- The events `es`, one step each. -/
inductive Run (step : S → E → S → Prop) : S → List E → S → Prop
  | nil (s : S) : Run step s [] s
  | cons {s t u : S} {e : E} {es : List E} : step s e t → Run step t es u → Run step s (e :: es) u

theorem Run.append {s t u : S} {es fs : List E} (first : Run step s es t)
    (second : Run step t fs u) : Run step s (es ++ fs) u := by
  induction first with
  | nil _ => exact second
  | cons here _ ih => exact .cons here (ih second)

/-- A run by weaker steps. -/
theorem Run.mono {step' : S → E → S → Prop} (weaker : ∀ s e t, step s e t → step' s e t) {s t : S}
    {es : List E} (run : Run step s es t) : Run step' s es t := by
  induction run with
  | nil s => exact .nil s
  | cons here _ ih => exact .cons (weaker _ _ _ here) ih

/-- **The invariant rule.** What every step keeps, every run keeps. -/
theorem Run.keeps (Inv : S → Prop) (keep : ∀ s e t, Inv s → step s e t → Inv t) {s t : S}
    {es : List E} (run : Run step s es t) (start : Inv s) : Inv t := by
  induction run with
  | nil _ => exact start
  | cons here _ ih => exact ih (keep _ _ _ start here)

/-- **The refinement rule.** Where every step does to the abstract value what its event says, a run
does what its events say one after another. -/
theorem Run.simulates {A : Type*} (Rel : S → A → Prop) (apply : A → E → A)
    (keep : ∀ s e t a, Rel s a → step s e t → Rel t (apply a e)) {s t : S} {es : List E}
    (run : Run step s es t) : ∀ {a : A}, Rel s a → Rel t (es.foldl apply a) := by
  induction run with
  | nil _ => exact fun start => start
  | cons here _ ih => exact fun start => ih (keep _ _ _ _ start here)

/-- A run whose events all satisfy `P`, by steps with such events. -/
theorem Run.restrict (P : E → Prop) {s t : S} {es : List E} (run : Run step s es t) :
    (∀ e ∈ es, P e) → Run (fun s e t => P e ∧ step s e t) s es t := by
  induction run with
  | nil s => exact fun _ => .nil s
  | cons here _ ih =>
    intro all
    obtain ⟨first, rest⟩ := List.forall_mem_cons.mp all
    exact .cons ⟨first, here⟩ (ih rest)

/-! ### One component changes -/

section Update

variable {A B : Type*} [DecidableEq A] {f : A → B} {a x y : A} {v : B} {P : B → Prop}

/-- What holds of a component holds of the new value, or of the component before. -/
theorem update_cases (holds : P (Function.update f a v x)) : x = a ∧ P v ∨ x ≠ a ∧ P (f x) := by
  by_cases own : x = a
  · rw [own, Function.update_self] at holds
    exact .inl ⟨own, holds⟩
  · rw [Function.update_of_ne own] at holds
    exact .inr ⟨own, holds⟩

/-- What holds of one component at most still does if no other component has it already. -/
theorem update_unique (unique : ∀ x y, P (f x) → P (f y) → x = y) (new : P v → ∀ x, P (f x) → x = a)
    (first : P (Function.update f a v x)) (second : P (Function.update f a v y)) : x = y := by
  obtain ⟨rfl, holds⟩ | ⟨-, old⟩ := update_cases first
  · obtain ⟨rfl, -⟩ | ⟨-, other⟩ := update_cases second
    · rfl
    · exact (new holds y other).symm
  · obtain ⟨rfl, holds⟩ | ⟨-, other⟩ := update_cases second
    · exact new holds x old
    · exact unique x y old other

end Update

end Runs

/-! ## Straight-line code under interference

Code is a list of operations on a local state. Between any two of them the environment may change the
state by `env`. `Fine code Q s`: from `s`, every operation is `safe` when it is executed, whatever the
environment does, and `Q` holds at the end.

* `Fine.step`, `Fine.changed` — the code's own step, and the environment's, lead to a state that is fine
  for the rest;
* `fine_append` — the rule for sequences: the second part is the first part's postcondition. -/

namespace Rely

variable {S Op : Type*} (safe : S → Op → Prop) (eff : S → Op → S → Prop) (env : S → S → Prop)

/-- The code runs safely from `s` and ends in `Q`. -/
def Fine : List Op → (S → Prop) → S → Prop
  | [], Q, s => ∀ s', env s s' → Q s'
  | op :: rest, Q, s => ∀ s', env s s' → safe s' op ∧ ∀ s'', eff s' op s'' → Fine rest Q s''

variable {safe eff env} {Q Q' : S → Prop} {s s' : S} {op : Op} {code rest : List Op}

theorem Fine.changed (trans : ∀ a b c, env a b → env b c → env a c)
    (fine : Fine safe eff env code Q s) (change : env s s') : Fine safe eff env code Q s' := by
  cases code with
  | nil => exact fun t later => fine t (trans s s' t change later)
  | cons op rest => exact fun t later => fine t (trans s s' t change later)

theorem Fine.done (refl : ∀ a, env a a) (fine : Fine safe eff env [] Q s) : Q s := fine s (refl s)

theorem Fine.ok (refl : ∀ a, env a a) (fine : Fine safe eff env (op :: rest) Q s) : safe s op :=
  (fine s (refl s)).1

theorem Fine.step (refl : ∀ a, env a a) (fine : Fine safe eff env (op :: rest) Q s)
    (done : eff s op s') : Fine safe eff env rest Q s' :=
  (fine s (refl s)).2 s' done

/-- **The rule for sequences.** -/
theorem fine_append (refl : ∀ a, env a a) : ∀ {code : List Op} {s : S},
    Fine safe eff env code (Fine safe eff env rest Q) s → Fine safe eff env (code ++ rest) Q s := by
  intro code
  induction code with
  | nil => exact fun fine => fine.done refl
  | cons op code ih =>
    intro s fine t change
    obtain ⟨ok, next⟩ := fine t change
    exact ⟨ok, fun u done => ih (next u done)⟩

end Rely

/-! ## Progress of a system of parties that wait for one another

* `exists_unblocked` — **ordered waiting.** Where whatever is awaited is held by somebody, and a party
  only waits for what ranks above all it holds, some holder is not waiting;
* `completes` — a system that is not done always has a step with less work left: it has a run to its
  end;
* `sum_lt_of_one` — the work left, summed over the parties, falls with that of one of them. -/

namespace Progress

open Runs

/-! ### Ordered waiting -/

/-- **Some party can go on**: a party that waits is behind one that does not, and that holds
something. -/
theorem exists_unblocked {C L : Type*} [Finite C] (waits : C → Option L) (holds : C → L → Prop)
    (rank : L → Nat) (held : ∀ c l, waits c = some l → ∃ c', holds c' l)
    (ordered : ∀ c l k, waits c = some l → holds c k → rank k < rank l) (c : C) :
    ∃ c', waits c' = none ∧ (c' = c ∨ ∃ l, holds c' l) := by
  by_contra stuck
  have blocked : ∀ c', (c' = c ∨ ∃ l, holds c' l) → ∃ l, waits c' = some l := fun c' behind =>
    Option.ne_none_iff_exists'.mp fun free => stuck ⟨c', free, behind⟩
  -- From holder to holder the awaited ranks rise without end.
  have climb : ∀ n : Nat, ∃ c' l, waits c' = some l ∧ n ≤ rank l := by
    intro n
    induction n with
    | zero =>
      obtain ⟨l, waiting⟩ := blocked c (.inl rfl)
      exact ⟨c, l, waiting, Nat.zero_le _⟩
    | succ n ih =>
      obtain ⟨c₁, l₁, waits₁, high⟩ := ih
      obtain ⟨c₂, owner⟩ := held c₁ l₁ waits₁
      obtain ⟨l₂, waits₂⟩ := blocked c₂ (.inr ⟨l₁, owner⟩)
      exact ⟨c₂, l₂, waits₂, high.trans_lt (ordered c₂ l₂ l₁ waits₂ owner)⟩
  obtain ⟨top, bound⟩ := (Set.finite_range fun c' => (waits c').elim 0 rank).bddAbove
  obtain ⟨c', l, waiting, high⟩ := climb (top + 1)
  have below : (waits c').elim 0 rank ≤ top := bound ⟨c', rfl⟩
  rw [waiting, Option.elim_some] at below
  omega

/-! ### Runs to the end -/

section Completion

variable {S E : Type*} {step : S → E → S → Prop}

/-- **Completion.** -/
theorem completes (Inv Done : S → Prop) {work : S → Nat} {P : E → Prop}
    (keep : ∀ s e t, Inv s → step s e t → Inv t)
    (progress : ∀ s, Inv s → ¬ Done s → ∃ e t, P e ∧ step s e t ∧ work t < work s) (s : S)
    (inv : Inv s) : ∃ es t, (∀ e ∈ es, P e) ∧ Run step s es t ∧ Inv t ∧ Done t := by
  induction left : work s using Nat.strong_induction_on generalizing s with
  | _ n ih =>
    by_cases done : Done s
    · exact ⟨[], s, List.forall_mem_nil _, .nil s, inv, done⟩
    · obtain ⟨e, t, allowed, here, less⟩ := progress s inv done
      obtain ⟨es, u, all, rest, last⟩ := ih (work t) (left ▸ less) t (keep s e t inv here) rfl
      exact ⟨e :: es, u, List.forall_mem_cons.mpr ⟨allowed, all⟩, .cons here rest, last⟩

theorem sum_lt_of_one {C : Type*} [Fintype C] {f g : C → Nat} (c : C) (less : f c < g c)
    (others : ∀ x, x ≠ c → f x = g x) : ∑ x, f x < ∑ x, g x := by
  refine Finset.sum_lt_sum (fun x _ => ?_) ⟨c, Finset.mem_univ c, less⟩
  by_cases own : x = c
  · exact own ▸ less.le
  · exact (others x own).le

end Completion

end Progress

/-! ## Owners of separate regions

Each owner has a region of a memory, reads and writes there only, and the regions do not meet. Then
the order in which the owners' steps interleave does not matter.

* `run_confined` — the steps of one owner, together, are again a step of it;
* `interleaved_frame` — what belongs to nobody stays as it is;
* `interleaved_eqOn` — in every interleaving an owner's region ends as if it had run alone. -/

namespace Separate

variable {A V I : Type*}

/-- A step of the owner of `R`: it reads and writes there only. -/
structure Confined (R : Set A) (f : (A → V) → A → V) : Prop where
  frame : ∀ m, Set.EqOn (f m) m Rᶜ
  reads : ∀ m m', Set.EqOn m m' R → Set.EqOn (f m) (f m') R

variable {R : Set A} {f : (A → V) → A → V}

def run (steps : List ((A → V) → A → V)) (m : A → V) : A → V := steps.foldl (fun m f => f m) m

theorem run_append (fs gs : List ((A → V) → A → V)) (m : A → V) :
    run (fs ++ gs) m = run gs (run fs m) := List.foldl_append

theorem Confined.comp {g : (A → V) → A → V} (first : Confined R f) (second : Confined R g) :
    Confined R fun m => g (f m) :=
  ⟨fun m => (second.frame (f m)).trans (first.frame m),
    fun m m' same => second.reads _ _ (first.reads m m' same)⟩

theorem run_confined : ∀ {steps : List ((A → V) → A → V)}, (∀ f ∈ steps, Confined R f) →
    Confined R (run steps)
  | [], _ => ⟨fun _ _ _ => rfl, fun _ _ same => same⟩
  | f :: steps, owned => by
    rw [List.forall_mem_cons] at owned
    exact owned.1.comp (run_confined owned.2)

/-- The steps of all owners, in the order in which they happen. -/
def interleaved (es : List (I × ((A → V) → A → V))) (m : A → V) : A → V := run (es.map Prod.snd) m

/-- What belongs to nobody stays. -/
theorem interleaved_frame {region : I → Set A} {x : A} (nobody : ∀ i, x ∉ region i) :
    ∀ {es : List (I × ((A → V) → A → V))} {m : A → V}, (∀ e ∈ es, Confined (region e.1) e.2) →
      interleaved es m x = m x
  | [], _, _ => rfl
  | e :: es, m, owned => by
    rw [List.forall_mem_cons] at owned
    have rest : interleaved es (e.2 m) x = e.2 m x := interleaved_frame nobody owned.2
    exact rest.trans (owned.1.frame m (nobody e.1))

variable [DecidableEq I]

/-- The steps of one owner. -/
def own (i : I) (es : List (I × ((A → V) → A → V))) : List ((A → V) → A → V) :=
  (es.filter fun e => e.1 = i).map Prod.snd

theorem own_alone (i j : I) (fs : List ((A → V) → A → V)) :
    own j (fs.map fun f => (i, f)) = if i = j then fs else [] := by
  by_cases same : i = j
  · simp [own, same, List.filter_map, Function.comp_def]
  · simp [own, same, List.filter_map, Function.comp_def]

/-- **An owner's region ends as if it had run alone.** -/
theorem interleaved_eqOn {region : I → Set A} (i : I)
    (apart : ∀ j, j ≠ i → ∀ x ∈ region j, x ∉ region i) :
    ∀ {es : List (I × ((A → V) → A → V))} {m m' : A → V}, (∀ e ∈ es, Confined (region e.1) e.2) →
      Set.EqOn m m' (region i) → Set.EqOn (interleaved es m) (run (own i es) m') (region i)
  | [], _, _, _, same => same
  | (j, f) :: es, m, m', owned, same => by
    rw [List.forall_mem_cons] at owned
    by_cases mine : j = i
    · subst mine
      have first : own j ((j, f) :: es) = f :: own j es := by simp [own]
      rw [first]
      exact interleaved_eqOn j apart owned.2 (owned.1.reads m m' same)
    · have first : own i ((j, f) :: es) = own i es := by simp [own, mine]
      rw [first]
      refine interleaved_eqOn i apart owned.2 (Set.EqOn.trans (fun x inside => ?_) same)
      exact owned.1.frame m fun other => apart j mine x other inside

end Separate

/-! ## Clients of one pool of pages

Several clients hold pages of a pool. What a client relies on is in its registers and in the pages it
holds. A step of a client takes free pages or gives some back, and writes to its own pages and to the
free ones only.

* `Shares.exchange` — such a step keeps what every client relies on, and no page has two holders;
* `Shares.undisturbed` — the other clients find their registers and pages as they left them;
* `Shares.run` — the same over a run: no page gets lost or has two holders, and a client that takes no
  step sees nothing of it. -/

namespace Pool

open Runs

variable {S P I E : Type*}

/-- A client. `Inv s R` says what it relies on, all of it in its registers and in the pages `R`. -/
structure Client (S P : Type*) (same : P → S → S → Prop) where
  Inv : S → Set P → Prop
  Regs : S → S → Prop
  refl : ∀ s, Regs s s
  trans : ∀ {s t u}, Regs s t → Regs t u → Regs s u
  congr : ∀ {s t R}, Inv s R → Regs s t → (∀ p ∈ R, same p s t) → Inv t R

variable {same : P → S → S → Prop} (client : I → Client S P same) (Free : S → Set P → Prop)

/-- **Who holds which page.** -/
structure Shares (s : S) (held : I → Set P) (free : Set P) : Prop where
  inv : ∀ i, (client i).Inv s (held i)
  list : Free s free
  apart : ∀ i j, i ≠ j → ∀ p ∈ held i, p ∉ held j
  notFree : ∀ i, ∀ p ∈ held i, p ∉ free

/-- A step of the client `i`, which holds `R`, while `F` is free. -/
structure Exchange (i : I) (R F : Set P) (s t : S) (F' : Set P) : Prop where
  inv : (client i).Inv t ((R ∪ F) \ F')
  list : Free t F'
  back : F' ⊆ R ∪ F
  frame : ∀ p, p ∉ R → p ∉ F → same p s t
  regs : ∀ j, j ≠ i → (client j).Regs s t

variable {client Free} {s t : S} {held : I → Set P} {free free' : Set P} {i : I}

/-- **The others are not disturbed.** -/
theorem Shares.undisturbed (shares : Shares client Free s held free)
    (step : Exchange client Free i (held i) free s t free') {j : I} (other : j ≠ i) :
    (client j).Regs s t ∧ ∀ p ∈ held j, same p s t :=
  ⟨step.regs j other, fun p member =>
    step.frame p (shares.apart j i other p member) (shares.notFree j p member)⟩

variable [DecidableEq I]

/-- The holders after a step of `i`: it keeps what it does not give back. -/
def afterwards (held : I → Set P) (free : Set P) (i : I) (free' : Set P) : I → Set P :=
  Function.update held i ((held i ∪ free) \ free')

theorem mem_afterwards {p : P} {j : I} (member : p ∈ afterwards held free i free' j) :
    p ∈ held j ∨ j = i ∧ p ∈ free := by
  by_cases mine : j = i
  · subst mine
    rw [afterwards, Function.update_self] at member
    exact member.1.imp_right fun taken => ⟨rfl, taken⟩
  · rw [afterwards, Function.update_of_ne mine] at member
    exact .inl member

/-- **A step of one client keeps what all rely on.** -/
theorem Shares.exchange (shares : Shares client Free s held free)
    (step : Exchange client Free i (held i) free s t free') :
    Shares client Free t (afterwards held free i free') free' := by
  refine ⟨fun j => ?_, step.list, fun j k different p inJ inK => ?_, fun j p member given => ?_⟩
  · by_cases mine : j = i
    · subst mine
      rw [afterwards, Function.update_self]
      exact step.inv
    · obtain ⟨regs, pages⟩ := shares.undisturbed step mine
      rw [afterwards, Function.update_of_ne mine]
      exact (client j).congr (shares.inv j) regs pages
  · rcases mem_afterwards inJ with oldJ | ⟨rfl, taken⟩ <;>
      rcases mem_afterwards inK with oldK | ⟨rfl, taken'⟩
    · exact shares.apart j k different p oldJ oldK
    · exact shares.notFree j p oldJ taken'
    · exact shares.notFree k p oldK taken
    · exact different rfl
  · by_cases mine : j = i
    · subst mine
      rw [afterwards, Function.update_self] at member
      exact member.2 given
    · rw [afterwards, Function.update_of_ne mine] at member
      rcases step.back given with his | unused
      · exact shares.apart j i mine p member his
      · exact shares.notFree j p member unused

/-- **No page is lost.** -/
theorem Exchange.pages (step : Exchange client Free i (held i) free s t free') (p : P) :
    (∃ j, p ∈ afterwards held free i free' j) ∨ p ∈ free' ↔ (∃ j, p ∈ held j) ∨ p ∈ free := by
  constructor
  · rintro (⟨j, member⟩ | given)
    · rcases mem_afterwards member with old | ⟨-, taken⟩
      · exact .inl ⟨j, old⟩
      · exact .inr taken
    · exact (step.back given).imp_left fun his => ⟨i, his⟩
  · intro before
    by_cases given : p ∈ free'
    · exact .inr given
    · refine .inl ?_
      rcases before with ⟨j, member⟩ | unused
      · by_cases mine : j = i
        · subst mine
          exact ⟨j, by rw [afterwards, Function.update_self]; exact ⟨.inl member, given⟩⟩
        · exact ⟨j, by rw [afterwards, Function.update_of_ne mine]; exact member⟩
      · exact ⟨i, by rw [afterwards, Function.update_self]; exact ⟨.inr unused, given⟩⟩

/-! ### Runs -/

/-- What a client sees of a run in which it takes no step. -/
structure Unseen (client : I → Client S P same) (j : I) (s t : S) (R R' : Set P) : Prop where
  pages : R' = R
  regs : (client j).Regs s t
  same : ∀ p ∈ R, same p s t

variable {Step : S → E → S → Prop} {owner : E → I}

/-- **Over a run**, if each step is one of the client that it belongs to. -/
theorem Shares.run (still : ∀ p s, same p s s)
    (chain : ∀ {p s t u}, same p s t → same p t u → same p s u)
    (steps : ∀ {s e t held free}, Shares client Free s held free → Step s e t →
      ∃ free', Exchange client Free (owner e) (held (owner e)) free s t free') {es : List E}
    (run : Run Step s es t) : ∀ {held : I → Set P} {free : Set P}, Shares client Free s held free →
      ∃ held' free', Shares client Free t held' free' ∧
        (∀ p, (∃ j, p ∈ held' j) ∨ p ∈ free' ↔ (∃ j, p ∈ held j) ∨ p ∈ free) ∧
        ∀ j, (∀ e ∈ es, owner e ≠ j) → Unseen client j s t (held j) (held' j) := by
  induction run with
  | nil s =>
    intro held free shares
    exact ⟨held, free, shares, fun p => Iff.rfl,
      fun j _ => ⟨rfl, (client j).refl s, fun p _ => still p s⟩⟩
  | @cons s mid t e es here _ ih =>
    intro held free shares
    obtain ⟨free₁, step⟩ := steps shares here
    obtain ⟨held', free', final, pages, unseen⟩ := ih (shares.exchange step)
    refine ⟨held', free', final, fun p => (pages p).trans (step.pages p), fun j absent => ?_⟩
    rw [List.forall_mem_cons] at absent
    have other : j ≠ owner e := Ne.symm absent.1
    obtain ⟨regs, first⟩ := shares.undisturbed step other
    have later := unseen j absent.2
    rw [afterwards, Function.update_of_ne other] at later
    exact ⟨later.pages, (client j).trans regs later.regs,
      fun p member => chain (first p member) (later.same p member)⟩

end Pool
