/-
**Texts: buffers, cursors and rows.**

* `storeAll_eq`, `storeUpTo_eq` — stores into a bounded buffer;
* `Follows` — programs that read an array through a cursor, compared with their specification;
* `rows_add`, `shown_add` — texts laid out in the rows of a screen.
-/

import Mathlib.Data.List.DropRight
import Mathlib.Data.List.GetD
import Mathlib.Tactic.Common

/-! ## Stores into a bounded buffer

A buffer of `cap` cells is filled from its start; it is given by the list of what has been stored,
so that the next store goes to the index that is the length of the list and fails with `full` at
the end of the buffer.

* `storeAll_eq` — a loop of stores succeeds exactly when what it stores fits;
* `storeAll_append` — two loops in a row store what one loop stores;
* `storeUpTo_eq`, `storeUpTo_append` — a loop that stops at a limit inside the buffer never fails;
* `put` — a list in the cells of an array that are counted from an index, where what the array
  held before matters (`update_put`, `put_update`, `turn_put`). -/

namespace Buffer

variable {α ε : Type} (cap : Nat) (full : ε)

/-- `buf[pos++] = x`. -/
def store (x : α) (buf : List α) : Except ε (List α) :=
  if buf.length < cap then .ok (buf ++ [x]) else .error full

/-- A loop that stores the elements of a list. -/
def storeAll : List α → List α → Except ε (List α)
  | [], buf => .ok buf
  | x :: xs, buf => store cap full x buf >>= storeAll xs

/-- A loop that stores the elements of a list as long as `pos < limit`. -/
def storeUpTo (limit : Nat) : List α → List α → Except ε (List α)
  | [], buf => .ok buf
  | x :: xs, buf =>
    if buf.length < limit then store cap full x buf >>= storeUpTo limit xs else .ok buf

variable {cap full}

theorem store_of_lt {buf : List α} (room : buf.length < cap) (x : α) :
    store cap full x buf = .ok (buf ++ [x]) := if_pos room

theorem storeAll_eq : ∀ (xs : List α) {buf : List α}, buf.length ≤ cap →
    storeAll cap full xs buf =
      if buf.length + xs.length ≤ cap then .ok (buf ++ xs) else .error full
  | [], buf, inside => by rw [if_pos (by simpa using inside), List.append_nil, storeAll]
  | x :: xs, buf, inside => by
    rw [storeAll, store]
    by_cases room : buf.length < cap
    · rw [if_pos room]
      refine (storeAll_eq xs (by simp; omega)).trans ?_
      simp only [List.length_append, List.length_cons, List.length_nil, List.append_assoc,
        List.singleton_append, Nat.add_assoc, Nat.add_comm 1]
    · rw [if_neg room, if_neg (by rw [List.length_cons]; omega)]
      rfl

theorem storeAll_append : ∀ (xs ys buf : List α),
    storeAll cap full (xs ++ ys) buf = storeAll cap full xs buf >>= storeAll cap full ys
  | [], _, _ => rfl
  | x :: xs, ys, buf => by
    rw [List.cons_append, storeAll, storeAll, store]
    split
    · exact storeAll_append xs ys _
    · rfl

theorem storeUpTo_eq {limit : Nat} (small : limit ≤ cap) : ∀ (xs : List α) {buf : List α},
    buf.length ≤ limit →
      storeUpTo cap full limit xs buf = .ok (buf ++ xs.take (limit - buf.length))
  | [], buf, _ => by rw [storeUpTo, List.take_nil, List.append_nil]
  | x :: xs, buf, inside => by
    rw [storeUpTo]
    by_cases room : buf.length < limit
    · rw [if_pos room, store_of_lt (Nat.lt_of_lt_of_le room small)]
      refine (storeUpTo_eq small xs (by simp; omega)).trans ?_
      obtain ⟨left, leftEq⟩ : ∃ left, limit - buf.length = left + 1 :=
        ⟨limit - buf.length - 1, by omega⟩
      rw [leftEq, List.take_succ_cons, List.append_assoc, List.singleton_append,
        List.length_append, List.length_singleton, ← Nat.sub_sub, leftEq, Nat.add_sub_cancel]
    · rw [if_neg room, Nat.sub_eq_zero_of_le (Nat.le_of_not_lt room), List.take_zero,
        List.append_nil]

theorem storeUpTo_append {limit : Nat} : ∀ (xs ys buf : List α),
    storeUpTo cap full limit (xs ++ ys) buf =
      storeUpTo cap full limit xs buf >>= storeUpTo cap full limit ys
  | [], _, _ => rfl
  | x :: xs, ys, buf => by
    rw [List.cons_append, storeUpTo, storeUpTo]
    by_cases room : buf.length < limit
    · rw [if_pos room, if_pos room, store]
      split
      · exact storeUpTo_append xs ys _
      · rfl
    · rw [if_neg room, if_neg room]
      cases ys with
      | nil => rfl
      | cons y ys => exact (if_neg room).symm

/-! ### Cells of an array -/

/-- The array `str` with the elements of `xs` in the cells from `i` on. -/
def put (str : Nat → α) (i : Nat) (xs : List α) : Nat → α := fun k =>
  if i ≤ k then xs.getD (k - i) (str k) else str k

theorem put_nil (str : Nat → α) (i : Nat) : put str i [] = str := by
  funext k
  simp [put]

theorem put_apply {str : Nat → α} {xs : List α} {k : Nat} (inside : k < xs.length) :
    put str 0 xs k = xs.get ⟨k, inside⟩ := by
  simp [put, inside]

theorem put_outside {str : Nat → α} {xs : List α} {k : Nat} (outside : xs.length ≤ k) :
    put str 0 xs k = str k := by
  simp [put, outside]

/-- A store in front of what follows it. -/
theorem put_update (str : Nat → α) (i : Nat) (x : α) (xs : List α) :
    put (Function.update str i x) (i + 1) xs = put str i (x :: xs) := by
  funext k
  unfold put
  obtain before | rfl | behind := Nat.lt_trichotomy k i
  · rw [if_neg (by omega), if_neg (by omega), Function.update_of_ne (by omega)]
  · rw [if_neg (by omega), if_pos (Nat.le_refl k), Function.update_self, Nat.sub_self]
    rfl
  · obtain ⟨d, distance⟩ : ∃ d, k - i = d + 1 := ⟨k - i - 1, by omega⟩
    rw [if_pos (by omega), if_pos (by omega), Function.update_of_ne (by omega), distance,
      List.getD_cons_succ, show k - (i + 1) = d by omega]

/-- A store behind what is there. -/
theorem update_put (str : Nat → α) (xs : List α) (x : α) :
    Function.update (put str 0 xs) xs.length x = put str 0 (xs ++ [x]) := by
  funext k
  obtain before | rfl | behind := Nat.lt_trichotomy k xs.length
  · rw [Function.update_of_ne (by omega), put_apply before, put_apply (by simp; omega)]
    simp [before]
  · rw [Function.update_self, put_apply (by simp)]
    simp
  · rw [Function.update_of_ne (by omega), put_outside (by omega), put_outside (by simp; omega)]

/-- The cells of a list, turned round, are those of the list turned round. -/
theorem turn_put (str : Nat → α) (xs : List α) :
    (fun k => if k < xs.length then put str 0 xs (xs.length - 1 - k) else put str 0 xs k) =
      put str 0 xs.reverse := by
  funext k
  by_cases inside : k < xs.length
  · rw [if_pos inside, put_apply (by omega), put_apply (by simpa using inside)]
    simp
  · rw [if_neg inside, put_outside (by omega), put_outside (by simp; omega)]

end Buffer

/-! ## Programs that read an array through a cursor

A `Program` moves a cursor over an array one element at a time; every index that it reads is logged.
It may run out of fuel (`none`) and may stop with a fault. `Follows` compares a run from a state with
a specification that works on a `view` of the state: the run returns, has read no index above `n`,
has not moved the cursor back or past `n`, and gives what the specification gives.

* `follows_pure`, `Follows.bind`, `follows_peek`, `follows_advance`, `follows_lift`,
  `follows_keep` — one rule for each way to build a program. -/

namespace Scanner

variable {A σ ε β γ C : Type}

/-- The cursor, what the program keeps besides, and the indices read, the latest first. -/
structure State (σ : Type) where
  pos : Nat
  rest : σ
  reads : List Nat

namespace State

variable (s : State σ)

def read : State σ := { s with reads := s.pos :: s.reads }

def next : State σ := { s with pos := s.pos + 1 }

/-- Neither the cursor nor a read is above `n`. -/
def Inside (n : Nat) : Prop := s.pos ≤ n ∧ ∀ i ∈ s.reads, i ≤ n

variable {s} {n : Nat}

theorem Inside.read (inside : s.Inside n) : s.read.Inside n :=
  ⟨inside.1, List.forall_mem_cons.mpr inside⟩

theorem Inside.next (inside : s.Inside n) (before : s.pos < n) : s.next.Inside n :=
  ⟨before, inside.2⟩

end State

def Program (σ ε β : Type) : Type := State σ → Option (Except ε β × State σ)

instance : Monad (Program σ ε) where
  pure b := fun s => some (.ok b, s)
  bind p q := fun s =>
    match p s with
    | none => none
    | some (.error fault, s') => some (.error fault, s')
    | some (.ok b, s') => q b s'

/-- The element at the cursor. -/
def peek (str : Nat → A) : Program σ ε A := fun s => some (.ok (str s.pos), s.read)

def advance : Program σ ε Unit := fun s => some (.ok (), s.next)

def lift (result : Except ε β) : Program σ ε β := fun s => some (result, s)

/-- A step of what is kept besides. -/
def keep (f : σ → β × σ) : Program σ ε β := fun s =>
  some (.ok (f s.rest).1, { s with rest := (f s.rest).2 })

/-- **A run that follows a specification** from `s`. -/
def Follows (n : Nat) (view : State σ → C) (s : State σ) (run : Option (Except ε β × State σ))
    (spec : Except ε (β × C)) : Prop :=
  ∃ result s', run = some (result, s') ∧ s'.Inside n ∧ s.pos ≤ s'.pos ∧
    spec = result.map fun b => (b, view s')

section

variable {n : Nat} {view : State σ → C} {s : State σ}

theorem follows_pure (inside : s.Inside n) (b : β) :
    Follows n view s ((pure b : Program σ ε β) s) (.ok (b, view s)) :=
  ⟨.ok b, s, rfl, inside, Nat.le_refl _, rfl⟩

theorem Follows.bind {p : Program σ ε β} {q : β → Program σ ε γ} {spec : Except ε (β × C)}
    {spec' : β × C → Except ε (γ × C)} (first : Follows n view s (p s) spec)
    (second : ∀ b s', s'.Inside n → s.pos ≤ s'.pos → spec = .ok (b, view s') →
      Follows n view s' (q b s') (spec' (b, view s'))) :
    Follows n view s ((p >>= q) s) (spec >>= spec') := by
  obtain ⟨result, s', ran, inside, forward, rfl⟩ := first
  cases result with
  | error fault =>
    refine ⟨.error fault, s', ?_, inside, forward, rfl⟩
    show (match p s with | none => none | some (.error _, _) => _ | some (.ok b, s') => q b s') = _
    rw [ran]
  | ok b =>
    obtain ⟨result', s'', ran', inside', forward', same⟩ := second b s' inside forward rfl
    refine ⟨result', s'', ?_, inside', Nat.le_trans forward forward', same⟩
    show (match p s with | none => none | some (.error _, _) => _ | some (.ok b, s') => q b s') = _
    rw [ran]
    exact ran'

theorem follows_peek {str : Nat → A} {q : A → Program σ ε γ} {spec : Except ε (γ × C)}
    (next : Follows n view s.read (q (str s.pos) s.read) spec) :
    Follows n view s ((peek str >>= q) s) spec := next

theorem follows_advance {q : Unit → Program σ ε γ} {spec : Except ε (γ × C)}
    (next : Follows n view s.next (q () s.next) spec) : Follows n view s ((advance >>= q) s) spec := by
  obtain ⟨result, s', ran, inside, forward, same⟩ := next
  exact ⟨result, s', ran, inside, Nat.le_of_succ_le forward, same⟩

theorem follows_lift {result : Except ε β} {q : β → Program σ ε γ}
    {spec' : β → Except ε (γ × C)} (inside : s.Inside n)
    (next : ∀ b, result = .ok b → Follows n view s (q b s) (spec' b)) :
    Follows n view s ((lift result >>= q) s) (result >>= spec') := by
  cases result with
  | error fault => exact ⟨.error fault, s, rfl, inside, Nat.le_refl _, rfl⟩
  | ok b => exact next b rfl

theorem follows_keep {f : σ → β × σ} {q : β → Program σ ε γ} {spec : Except ε (γ × C)}
    (next : Follows n view { s with rest := (f s.rest).2 }
      (q (f s.rest).1 { s with rest := (f s.rest).2 }) spec) :
    Follows n view s ((keep f >>= q) s) spec := next

end

end Scanner

/-! ## Text laid out in rows

A text is a list of cells and newlines (`none`). It is laid out in rows that end at a newline or
when they are `width` cells long; a screen of rows shows them one below the other, and blank cells
behind the end of a row and below the last one.

* `rows_add` — an element of the text goes to the end of the current row;
* `cell_tail`, `cell_put` — a screen scrolled by a row, and one with a cell more;
* `rtake_cons`, `rtake_all`, `shown_cases`, `shown_add`, `line_add` — the last rows. -/

namespace Rows

variable {A : Type}

/-- The rows that have ended, and the one where the layout continues. -/
structure Page (A : Type) where
  done : List (List A)
  current : List A

namespace Page

variable (width : Nat) (p : Page A)

def add : Option A → Page A
  | none => ⟨p.done ++ [p.current], []⟩
  | some a =>
    if p.current.length + 1 = width then ⟨p.done ++ [p.current ++ [a]], []⟩
    else ⟨p.done, p.current ++ [a]⟩

/-- The rows up to the one that the last element of the text is in. -/
def rows : List (List A) := if p.current.isEmpty then p.done else p.done ++ [p.current]

/-- The line of a screen of `height` rows where the layout continues: below the rows shown, or the
last of them. -/
def line (height : Nat) : Nat :=
  (p.rows.rtake height).length - if p.current.isEmpty then 0 else 1

end Page

/-- **The layout of a text.** -/
def layout (width : Nat) (text : List (Option A)) : Page A :=
  text.foldl (Page.add width) ⟨[], []⟩

/-- The cell `i` of a screen that shows some rows. -/
def cell (width : Nat) (blank : A) (rows : List (List A)) (i : Nat) : A :=
  (rows.getD (i / width) []).getD (i % width) blank

variable {width : Nat} {blank : A}

theorem rows_add (p : Page A) (x : Option A) :
    (p.add width x).rows = p.done ++ [p.current ++ x.toList] := by
  cases x with
  | none =>
    unfold Page.add Page.rows
    simp
  | some a =>
    unfold Page.add Page.rows
    by_cases full : p.current.length + 1 = width
    · simp [full]
    · simp [full]

theorem current_add {p : Page A} (short : p.current.length < width) (x : Option A) :
    (p.add width x).current.length < width := by
  cases x with
  | none => exact Nat.zero_lt_of_lt short
  | some a =>
    rw [Page.add]
    by_cases full : p.current.length + 1 = width
    · rw [if_pos full]
      exact Nat.zero_lt_of_lt short
    · rw [if_neg full]
      simp
      omega

/-! ### Screens -/

theorem cell_below {rows : List (List A)} {i : Nat} (below : rows.length ≤ i / width) :
    cell width blank rows i = blank := by
  unfold cell
  rw [List.getD_eq_default _ _ below]
  simp

theorem cell_nil (i : Nat) : cell width blank [] i = blank := by
  simp [cell]

theorem cell_append_nil (rows : List (List A)) :
    cell width blank (rows ++ [[]]) = cell width blank rows := by
  funext i
  unfold cell
  obtain before | here | behind := Nat.lt_trichotomy (i / width) rows.length
  · rw [List.getD_append _ _ _ _ before]
  · rw [here]
    simp
  · exact (cell_below (by simp; omega)).trans (cell_below (by omega)).symm

/-- A screen scrolled by one row. -/
theorem cell_tail (positive : 0 < width) (row : List A) (rows : List (List A)) (i : Nat) :
    cell width blank (row :: rows) (i + width) = cell width blank rows i := by
  unfold cell
  rw [Nat.add_div_right i positive, Nat.add_mod_right, List.getD_cons_succ]

/-- A screen with one cell more in its last row. -/
theorem cell_put (rows : List (List A)) {row : List A} (short : row.length < width) (a : A)
    (i : Nat) :
    cell width blank (rows ++ [row ++ [a]]) i =
      if i = rows.length * width + row.length then a else cell width blank (rows ++ [row]) i := by
  have positive : 0 < width := Nat.zero_lt_of_lt short
  have split := Nat.div_add_mod i width
  unfold cell
  obtain before | here | behind := Nat.lt_trichotomy (i / width) rows.length
  · rw [if_neg, List.getD_append _ _ _ _ before, List.getD_append _ _ _ _ before]
    intro same
    rw [same, Nat.mul_comm, Nat.mul_add_div positive, Nat.div_eq_of_lt short] at before
    omega
  · have last : ∀ row : List A, (rows ++ [row]).getD (i / width) [] = row := by
      intro row
      rw [here]
      simp
    rw [last, last]
    have offset : i = rows.length * width + row.length ↔ i % width = row.length := by
      rw [← here, Nat.mul_comm]
      omega
    by_cases same : i % width = row.length
    · rw [if_pos (offset.mpr same), same]
      simp
    · rw [if_neg fun other => same (offset.mp other)]
      obtain less | more := Nat.lt_or_gt_of_ne same
      · rw [List.getD_append _ _ _ _ less]
      · rw [List.getD_eq_default _ _ (by simp; omega), List.getD_eq_default _ _ (by omega)]
  · rw [if_neg]
    · exact (cell_below (by simp; omega)).trans (cell_below (by simp; omega)).symm
    · intro same
      rw [same, Nat.mul_comm, Nat.mul_add_div positive, Nat.div_eq_of_lt short] at behind
      omega

/-! ### The last rows -/

theorem length_rtake (n : Nat) (rows : List (List A)) :
    (rows.rtake n).length = min n rows.length := by
  rw [List.rtake, List.length_drop]
  omega

theorem rtake_all {n : Nat} {rows : List (List A)} (few : rows.length ≤ n) : rows.rtake n = rows := by
  rw [List.rtake, Nat.sub_eq_zero_of_le few, List.drop_zero]

theorem rtake_cons {n : Nat} {rows : List (List A)} (many : n < rows.length) :
    ∃ row, rows.rtake (n + 1) = row :: rows.rtake n := by
  have first : rows.length - (n + 1) < rows.length := by omega
  refine ⟨rows.get ⟨_, first⟩, ?_⟩
  rw [List.rtake, List.rtake, List.drop_eq_getElem_cons first,
    show rows.length - (n + 1) + 1 = rows.length - n by omega]
  rfl

/-- What a screen shows of a page that continues below its rows, or in the last of them. -/
theorem shown_cases (height : Nat) (p : Page A) :
    p.current = [] ∧ p.rows.rtake (height + 1) = p.done.rtake (height + 1) ∧
        p.line (height + 1) = min (height + 1) p.done.length ∨
      p.rows.rtake (height + 1) = p.done.rtake height ++ [p.current] ∧
        p.line (height + 1) = min height p.done.length := by
  unfold Page.line Page.rows
  cases current : p.current with
  | nil => exact .inl ⟨rfl, rfl, length_rtake _ _⟩
  | cons a row =>
    refine .inr ⟨List.rtake_concat_succ .., ?_⟩
    rw [List.isEmpty_cons, if_neg (by decide), if_neg (by decide), List.rtake_concat_succ,
      List.length_append, length_rtake, List.length_singleton, Nat.add_sub_cancel]

/-- What it shows after one more element. -/
theorem shown_add (height : Nat) (p : Page A) (x : Option A) :
    (p.add width x).rows.rtake (height + 1) = p.done.rtake height ++ [p.current ++ x.toList] := by
  rw [rows_add, List.rtake_concat_succ]

/-- Where the page continues after one more element. -/
theorem line_add (height : Nat) (p : Page A) (x : Option A) :
    (p.add width x).line (height + 1) =
      (p.done.rtake height).length + if (p.add width x).current.isEmpty then 1 else 0 := by
  rw [Page.line, shown_add, List.length_append, List.length_singleton]
  split <;> omega

end Rows
