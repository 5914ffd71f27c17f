/-
**Scans over variable-length records.**

A table is a sequence of records that each say how long they are: `size o` is the size of the record
at offset `o`, and the table ends at `stop`. `scan` is the loop that goes from record to record, with
fuel, a condition `more` to go on and a check `sane` that breaks off; it returns the offsets it
visited and the state it gathered.

* `Chain` — the table is made of whole records, each at least as long as its header;
* `scan_chain` — over such a table a scan visits the records in order, as far as `more` allows;
* `scan_terminates` — a scan whose check refuses empty records ends, whatever the table;
* `chain_of_scans` — where a checked and an unchecked scan visit the same, the table is a chain;
* `Lays` — given records are laid out one after another; `Lays.scan` — a scan gathers from them in
  order;
* `rounds` — where the rounds of a scan stand, the one that breaks off included; `scan_congr` — a
  scan depends on nothing but what its rounds look at;
* `Leads` — whole records lead from one offset to another; `mem_rounds_iff` — the rounds of a checked
  scan are at the offsets in the table that the sizes lead to.
-/

import Mathlib.Algebra.GroupWithZero.Nat
import Mathlib.Tactic.Common

namespace Records

variable {S T : Type*} (size : Nat → Nat) (stop : Nat)

/-- `while (o < stop && more) { if (!sane) break; visit; o += size }`. -/
def scan (more : S → Bool) (sane : Nat → Bool) (visit : Nat → S → S) :
    Nat → Nat → S → Option (List Nat × S)
  | 0, _, _ => none
  | fuel + 1, o, s =>
    if o < stop ∧ more s then
      if sane o then do
        let (visited, s) ← scan more sane visit fuel (o + size o) (visit o s)
        some (o :: visited, s)
      else some ([], s)
    else some ([], s)

/-- The rounds that the loop begins: the offset of each and the state it finds. -/
def rounds (more : S → Bool) (sane : Nat → Bool) (visit : Nat → S → S) :
    Nat → Nat → S → Option (List (Nat × S))
  | 0, _, _ => none
  | fuel + 1, o, s =>
    if o < stop ∧ more s then
      if sane o then do
        let begun ← rounds more sane visit fuel (o + size o) (visit o s)
        some ((o, s) :: begun)
      else some [(o, s)]
    else some []

variable (header : Nat)

/-- A record that has its header and ends inside the table. -/
def Whole (o : Nat) : Prop := header ≤ size o ∧ o + size o ≤ stop

/-- From `o` on the table is made of the whole records at `os`. -/
inductive Chain : Nat → List Nat → Prop
  | done {o : Nat} : stop ≤ o → Chain o []
  | step {o : Nat} {os : List Nat} : o < stop → Whole size stop header o → Chain (o + size o) os →
    Chain o (o :: os)

/-- The whole records at `os` lead from the first offset to the last. -/
inductive Leads : Nat → List Nat → Nat → Prop
  | here (o : Nat) : Leads o [] o
  | record {o last : Nat} {os : List Nat} : Whole size stop header o → Leads (o + size o) os last →
    Leads o (o :: os) last

/-- The records of a list in order, as far as `more` allows. -/
def through (more : S → Bool) (visit : Nat → S → S) : List Nat → S → List Nat × S
  | [], s => ([], s)
  | o :: os, s =>
    if more s then
      let (visited, s) := through more visit os (visit o s)
      (o :: visited, s)
    else ([], s)

variable {size stop header}

theorem through_all (visit : Nat → S → S) : ∀ (os : List Nat) (s : S),
    through (fun _ => true) visit os s = (os, os.foldl (fun s o => visit o s) s)
  | [], _ => rfl
  | o :: os, s => by
    rw [through, if_pos rfl, through_all visit os]
    rfl

/-- More fuel does not change the result of a scan that ended. -/
theorem scan_more {more : S → Bool} {sane : Nat → Bool} {visit : Nat → S → S} {k : Nat} :
    ∀ {fuel o : Nat} {s : S} {r : List Nat × S},
      scan size stop more sane visit fuel o s = some r →
        scan size stop more sane visit (fuel + k) o s = some r := by
  intro fuel
  induction fuel with
  | zero =>
    intro _ _ _ done
    cases done
  | succ fuel ih =>
    intro o s r done
    rw [Nat.succ_add, scan]
    rw [scan] at done
    split at done
    · rename_i go
      rw [if_pos go]
      split at done
      · rename_i ok
        obtain ⟨mid, rest, last⟩ := Option.bind_eq_some_iff.mp done
        rw [if_pos ok, ih rest]
        exact last
      · rename_i bad
        rw [if_neg bad]
        exact done
    · rename_i halt
      rw [if_neg halt]
      exact done

/-- A scan has one result. -/
theorem scan_unique {more : S → Bool} {sane : Nat → Bool} {visit : Nat → S → S} {fuel fuel' o : Nat}
    {s : S} {r r' : List Nat × S} (first : scan size stop more sane visit fuel o s = some r)
    (second : scan size stop more sane visit fuel' o s = some r') : r = r' := by
  have one := scan_more (k := fuel') first
  have other := scan_more (k := fuel) second
  rw [Nat.add_comm] at other
  exact Option.some.inj (one.symm.trans other)

/-- **A scan over a chain** whose check accepts whole records. -/
theorem scan_chain {more : S → Bool} {sane : Nat → Bool} {visit : Nat → S → S}
    (accepts : ∀ o, Whole size stop header o → sane o = true) {o : Nat} {os : List Nat}
    (chain : Chain size stop header o os) : ∀ (fuel : Nat) (s : S), os.length < fuel →
      scan size stop more sane visit fuel o s = some (through more visit os s) := by
  induction chain with
  | @done o past =>
    intro fuel s enough
    obtain ⟨fuel, rfl⟩ := Nat.exists_eq_add_one_of_ne_zero (Nat.ne_of_gt enough)
    rw [scan, if_neg (by omega), through]
  | @step o os inside whole _ ih =>
    intro fuel s enough
    obtain ⟨fuel, rfl⟩ := Nat.exists_eq_add_one_of_ne_zero (Nat.ne_of_gt (Nat.zero_lt_of_lt enough))
    rw [List.length_cons] at enough
    rw [scan, through]
    by_cases goes : more s = true
    · rw [if_pos ⟨inside, goes⟩, if_pos (accepts o whole), if_pos goes, ih fuel _ (by omega)]
      rfl
    · rw [if_neg fun both => goes both.2, if_neg goes]

/-- **A scan that refuses empty records ends.** -/
theorem scan_terminates {more : S → Bool} {sane : Nat → Bool} {visit : Nat → S → S}
    (refuses : ∀ o, sane o = true → 0 < size o) : ∀ (fuel o : Nat) (s : S), stop - o < fuel →
      ∃ result, scan size stop more sane visit fuel o s = some result := by
  intro fuel
  induction fuel with
  | zero => exact fun o s enough => absurd enough (Nat.not_lt_zero _)
  | succ fuel ih =>
    intro o s enough
    rw [scan]
    by_cases goes : o < stop ∧ more s = true
    · rw [if_pos goes]
      by_cases checked : sane o = true
      · have positive := refuses o checked
        obtain ⟨⟨visited, t⟩, rest⟩ := ih (o + size o) (visit o s) (by omega)
        rw [if_pos checked, rest]
        exact ⟨_, rfl⟩
      · rw [if_neg checked]
        exact ⟨_, rfl⟩
    · rw [if_neg goes]
      exact ⟨_, rfl⟩

/-- **Where a checked and an unchecked scan visit the same records, the check never broke off.** -/
theorem chain_of_scans {sane : Nat → Bool} {visit : Nat → S → S} {visit' : Nat → T → T}
    (sound : ∀ o, sane o = true → Whole size stop header o) : ∀ (fuel fuel' o : Nat) (s : S) (t : T)
      {visited : List Nat} {s' : S} {t' : T},
      scan size stop (fun _ => true) (fun _ => true) visit fuel o s = some (visited, s') →
      scan size stop (fun _ => true) sane visit' fuel' o t = some (visited, t') →
      Chain size stop header o visited := by
  intro fuel
  induction fuel with
  | zero => exact fun fuel' o s t _ _ _ free => nomatch free
  | succ fuel ih =>
    intro fuel' o s t visited s' t' free checked
    by_cases inside : o < stop
    · rw [scan, if_pos ⟨inside, rfl⟩, if_pos rfl] at free
      obtain ⟨⟨rest, s₁⟩, next, here⟩ := Option.bind_eq_some_iff.mp free
      obtain ⟨rfl, rfl⟩ := Prod.mk.inj (Option.some.inj here)
      cases fuel' with
      | zero => exact nomatch checked
      | succ fuel' =>
        rw [scan, if_pos ⟨inside, rfl⟩] at checked
        by_cases accepted : sane o = true
        · rw [if_pos accepted] at checked
          obtain ⟨⟨rest', t₁⟩, next', here'⟩ := Option.bind_eq_some_iff.mp checked
          obtain ⟨same, rfl⟩ := Prod.mk.inj (Option.some.inj here')
          obtain ⟨-, rfl⟩ := List.cons.inj same
          exact .step inside (sound o accepted) (ih fuel' _ _ _ next next')
        · rw [if_neg accepted] at checked
          exact nomatch checked
    · rw [scan, if_neg fun both => inside both.1] at free
      obtain ⟨rfl, rfl⟩ := Prod.mk.inj (Option.some.inj free)
      exact .done (Nat.not_lt.mp inside)

/-- An unchecked scan of an empty record does not end. -/
theorem scan_stuck {more : S → Bool} {visit : Nat → S → S} {o : Nat} (inside : o < stop)
    (empty : size o = 0) (goes : ∀ s, more s = true → more (visit o s) = true) :
    ∀ (fuel : Nat) (s : S), more s = true →
      scan size stop more (fun _ => true) visit fuel o s = none := by
  intro fuel
  induction fuel with
  | zero => exact fun s _ => rfl
  | succ fuel ih =>
    intro s on
    rw [scan, if_pos ⟨inside, on⟩, if_pos rfl, empty, Nat.add_zero, ih _ (goes s on)]
    rfl

/-! ### Rounds -/

section Rounds

variable {more : S → Bool} {sane : Nat → Bool} {visit : Nat → S → S}

/-- The records that a scan visits are those of its rounds that pass the check. -/
theorem rounds_of_scan : ∀ {fuel o : Nat} {s s' : S} {visited : List Nat},
    scan size stop more sane visit fuel o s = some (visited, s') →
      ∃ begun, rounds size stop more sane visit fuel o s = some begun ∧
        (begun.map Prod.fst).filter sane = visited := by
  intro fuel
  induction fuel with
  | zero =>
    intro o s s' visited done
    cases done
  | succ fuel ih =>
    intro o s s' visited done
    rw [scan] at done
    rw [rounds]
    split at done
    · rename_i go
      rw [if_pos go]
      split at done
      · rename_i ok
        obtain ⟨⟨visited', s₁⟩, rest, last⟩ := Option.bind_eq_some_iff.mp done
        cases last
        obtain ⟨begun, ran, passed⟩ := ih rest
        rw [if_pos ok, ran]
        refine ⟨(o, s) :: begun, rfl, ?_⟩
        rw [List.map_cons, List.filter_cons_of_pos ok, passed]
      · rename_i bad
        cases done
        rw [if_neg bad]
        exact ⟨[(o, s)], rfl, List.filter_cons_of_neg bad⟩
    · rename_i halt
      cases done
      rw [if_neg halt]
      exact ⟨[], rfl, rfl⟩

/-- **A scan is determined by its rounds**: another one that sizes, checks and visits their records
alike has the same result. -/
theorem scan_congr {size' : Nat → Nat} {sane' : Nat → Bool} {visit' : Nat → S → S} :
    ∀ {fuel o : Nat} {s : S} {begun : List (Nat × S)},
      rounds size stop more sane visit fuel o s = some begun →
        (∀ p ∈ begun, size' p.1 = size p.1 ∧ sane' p.1 = sane p.1 ∧
          (sane p.1 = true → visit' p.1 p.2 = visit p.1 p.2)) →
          scan size' stop more sane' visit' fuel o s = scan size stop more sane visit fuel o s := by
  intro fuel
  induction fuel with
  | zero => exact fun _ _ => rfl
  | succ fuel ih =>
    intro o s begun run alike
    rw [rounds] at run
    rw [scan, scan]
    split at run
    · rename_i go
      rw [if_pos go, if_pos go]
      split at run
      · rename_i ok
        obtain ⟨later, rest, last⟩ := Option.bind_eq_some_iff.mp run
        cases last
        obtain ⟨⟨sizes, checks, visits⟩, others⟩ := List.forall_mem_cons.mp alike
        rw [checks, if_pos ok, if_pos ok, sizes, visits ok, ih rest others]
      · rename_i bad
        cases run
        obtain ⟨-, checks, -⟩ := List.forall_mem_singleton.mp alike
        rw [checks, if_neg bad, if_neg bad]
    · rename_i halt
      rw [if_neg halt, if_neg halt]

/-- **The rounds of a checked scan**: where they stand, and what has been gathered on the way. -/
theorem mem_rounds_iff (decides : ∀ o, sane o = true ↔ Whole size stop header o)
    (positive : 0 < header) : ∀ {fuel o : Nat} {s : S} {begun : List (Nat × S)},
      rounds size stop (fun _ => true) sane visit fuel o s = some begun → ∀ p, p ∈ begun ↔
        ∃ os, Leads size stop header o os p.1 ∧ p.1 < stop ∧
          p.2 = os.foldl (fun s o => visit o s) s := by
  intro fuel
  induction fuel with
  | zero =>
    intro o s begun run
    cases run
  | succ fuel ih =>
    intro o s begun run p
    have first : o < stop → ∃ os, Leads size stop header o os o ∧ o < stop ∧
        s = os.foldl (fun s o => visit o s) s := fun inside => ⟨[], .here o, inside, rfl⟩
    rw [rounds] at run
    split at run
    · rename_i go
      split at run
      · rename_i ok
        obtain ⟨later, rest, last⟩ := Option.bind_eq_some_iff.mp run
        cases last
        rw [List.mem_cons, ih rest p]
        constructor
        · rintro (rfl | ⟨os, leads, inside, gathered⟩)
          · exact first go.1
          · exact ⟨o :: os, .record ((decides o).mp ok) leads, inside, gathered⟩
        · rintro ⟨os, leads, inside, gathered⟩
          cases leads with
          | here => exact .inl (Prod.ext rfl gathered)
          | record whole leads => exact .inr ⟨_, leads, inside, gathered⟩
      · rename_i bad
        cases run
        rw [List.mem_singleton]
        constructor
        · rintro rfl
          exact first go.1
        · rintro ⟨os, leads, inside, gathered⟩
          cases leads with
          | here => exact Prod.ext rfl gathered
          | record whole leads => exact absurd ((decides o).mpr whole) bad
    · rename_i halt
      cases run
      refine iff_of_false List.not_mem_nil ?_
      rintro ⟨os, leads, inside, gathered⟩
      cases leads with
      | here => exact halt ⟨inside, rfl⟩
      | record whole leads =>
        have long := whole.1
        have fits := whole.2
        exact halt ⟨by omega, rfl⟩

end Rounds

/-! ### Laid out records -/

section Lays

variable {E : Type*} {here : Nat → E → Prop} {width : E → Nat}

/-- **Records one after another**; `here o e` says that the record `e` is at offset `o`. -/
inductive Lays (here : Nat → E → Prop) (width : E → Nat) : Nat → List E → Prop
  | nil (o : Nat) : Lays here width o []
  | cons {o : Nat} {e : E} {es : List E} : here o e → Lays here width (o + width e) es →
    Lays here width o (e :: es)

/-- A record that is laid out inside the table is whole. -/
theorem whole_of_here (sizes : ∀ o e, here o e → size o = width e) (wide : ∀ e, header ≤ width e)
    {o : Nat} {e : E} (laid : here o e) (fits : o + width e ≤ stop) : Whole size stop header o := by
  rw [Whole, sizes o e laid]
  exact ⟨wide e, fits⟩

/-- The offsets of the records are a chain, and what is gathered over them is gathered from the
records. -/
theorem Lays.chain (sizes : ∀ o e, here o e → size o = width e) (wide : ∀ e, header ≤ width e)
    (positive : 0 < header) {visit : Nat → S → S} {record : E → S → S}
    (same : ∀ o e s, here o e → visit o s = record e s) {o : Nat} {es : List E}
    (lays : Lays here width o es) : o + (es.map width).sum = stop →
      ∃ os, Chain size stop header o os ∧ ∀ s, os.foldl (fun s o => visit o s) s =
        es.foldl (fun s e => record e s) s := by
  induction lays with
  | nil o => exact fun ends => ⟨[], .done (Nat.le_of_eq ends.symm), fun _ => rfl⟩
  | @cons o e es first _ ih =>
    intro ends
    rw [List.map_cons, List.sum_cons] at ends
    obtain ⟨os, chain, gathered⟩ := ih (by omega)
    have long := wide e
    have whole : Whole size stop header o := whole_of_here sizes wide first (by omega)
    rw [← sizes o e first] at chain
    refine ⟨o :: os, .step (by omega) whole chain, fun s => ?_⟩
    rw [List.foldl_cons, List.foldl_cons, same o e s first, gathered]

/-- **A scan of laid out records** gathers from them in order. -/
theorem Lays.scan {sane : Nat → Bool} (allows : ∀ o, Whole size stop header o → sane o = true)
    (sizes : ∀ o e, here o e → size o = width e) (wide : ∀ e, header ≤ width e)
    (positive : 0 < header) {visit : Nat → S → S} {record : E → S → S}
    (same : ∀ o e s, here o e → visit o s = record e s) {o : Nat} {es : List E}
    (lays : Lays here width o es) (ends : o + (es.map width).sum = stop) (s : S) :
    ∃ fuel os, scan size stop (fun _ => true) sane visit fuel o s =
      Option.some (os, es.foldl (fun s e => record e s) s) := by
  obtain ⟨os, chain, gathered⟩ := lays.chain sizes wide positive same ends
  refine ⟨os.length + 1, os, ?_⟩
  rw [scan_chain allows chain _ _ (Nat.lt_succ_self _), through_all, gathered]

/-- The rounds over laid out records are at whole ones. -/
theorem Lays.rounds {sane : Nat → Bool} (allows : ∀ o, Whole size stop header o → sane o = true)
    (sizes : ∀ o e, here o e → size o = width e) (wide : ∀ e, header ≤ width e)
    (positive : 0 < header) {visit : Nat → S → S} {o : Nat} {es : List E}
    (lays : Lays here width o es) : o + (es.map width).sum = stop → ∀ s, ∃ fuel begun,
      rounds size stop (fun _ => true) sane visit fuel o s = Option.some begun ∧
        ∀ p ∈ begun, Whole size stop header p.1 ∧ ∃ e, here p.1 e := by
  induction lays with
  | nil o =>
    intro ends s
    refine ⟨1, [], ?_, List.forall_mem_nil _⟩
    rw [Records.rounds, if_neg]
    rintro ⟨inside, -⟩
    exact absurd ends (Nat.ne_of_lt inside)
  | @cons o e es first _ ih =>
    intro ends s
    rw [List.map_cons, List.sum_cons] at ends
    have long := wide e
    have whole : Whole size stop header o := whole_of_here sizes wide first (by omega)
    obtain ⟨fuel, begun, ran, good⟩ := ih (by omega) (visit o s)
    refine ⟨fuel + 1, (o, s) :: begun, ?_, List.forall_mem_cons.mpr ⟨⟨whole, e, first⟩, good⟩⟩
    rw [Records.rounds, if_pos ⟨by omega, rfl⟩, if_pos (allows o whole), sizes o e first, ran]
    rfl

end Lays

end Records
