/-
**The circular lists of `list.c`.**

A `struct list` is embedded in an object at its start, `prev` before `next`. The model works on the
bytes of memory; `lst_init` makes a head, and every other function is called with heads and nodes.

* `lstRemove_agree`, `lstPush_agree` — what the stores do to the pointers of the nodes;
* `LstStep` — the functions on lists in the abstract: the result, and the lists afterwards. A node
  may be removed a second time while its old neighbours are in one list and in their order; it takes
  with it what has come in between them;
* `lst_run_refines` — over any run, on any number of lists, the code gives the results of the
  abstract lists, up to the panic of an `lst_pop` from an empty list.
-/

import ShipOS.Lib.Runs
import ShipOS.Lib.Sentinel
import ShipOS.Lib.ByteMem
import ShipOS.Tty.Fields
import ShipOS.Tty.Printf

namespace ShipOS

open ByteMem Ring Sentinel Runs

/-! ### The functions -/

/-- `e->prev`. -/
def lstPrev (m : Mem) (e : Word) : Word := load64 m e

/-- `e->next`. -/
def lstNext (m : Mem) (e : Word) : Word := load64 m (e + 8)

def setLstPrev (m : Mem) (e v : Word) : Mem := store64 m e v

def setLstNext (m : Mem) (e v : Word) : Mem := store64 m (e + 8) v

/-- Why a call does not return. -/
inductive LstStop
  | panic (message : String)
  | fault (fault : Fault)
  | outOfFuel
  deriving DecidableEq

def lstInit (m : Mem) (lst : Word) : Mem :=
  let m := setLstNext m lst lst
  setLstPrev m lst lst

def lstEmpty (m : Mem) (lst : Word) : Bool := lstNext m lst = lst

def lstRemove (m : Mem) (e : Word) : Mem :=
  let m := setLstNext m (lstPrev m e) (lstNext m e)
  setLstPrev m (lstNext m e) (lstPrev m e)

def lstPop (m : Mem) (lst : Word) : Except LstStop (Word × Mem) :=
  if lstNext m lst = lst then .error (.panic "lst_pop")
  else
    let p := lstNext m lst
    .ok (p, lstRemove m p)

def lstPush (m : Mem) (lst p : Word) : Mem :=
  let e := p
  let m := setLstNext m e (lstNext m lst)
  let m := setLstPrev m e lst
  let m := setLstPrev m (lstNext m lst) p
  setLstNext m lst e

/-- A call of `printf` with one argument or none. -/
def printed (format : String) (arg : Word) : Except LstStop (List TtyCall) :=
  match printf (fun _ => []) (ascii format) (fun _ => arg) with
  | (calls, none) => .ok calls
  | (_, some fault) => .error (.fault fault)

/-- The loop of `lst_print`. -/
def lstPrintLoop (m : Mem) (lst : Word) : Nat → Word → Except LstStop (List TtyCall)
  | 0, _ => .error .outOfFuel
  | fuel + 1, p =>
    if p ≠ lst then do
      let calls ← printed " %p" p
      let rest ← lstPrintLoop m lst fuel (lstNext m p)
      .ok (calls ++ rest)
    else printed "\n" 0

def lstPrint (m : Mem) (lst : Word) (fuel : Nat) : Except LstStop (List TtyCall) :=
  lstPrintLoop m lst fuel (lstNext m lst)

/-! ### Printing -/

/-- A pointer as `%p` shows it. -/
def pointerText (p : Word) : List Byte :=
  (if p = 0 then [] else ascii "0x") ++ utoa64 p.toNat 16 false

/-- The output calls for one node. -/
def pointerCalls (p : Word) : List TtyCall := [.putchar (chr ' '), .print (pointerText p ++ [0])]

/-- How `convert` reads `%p`. -/
def pointerSpec : FmtSpec := { flags := { hash := true }, precision := 1 }

theorem formatUnsigned_pointer (p : Word) :
    leftInBuf (formatUnsigned p.toNat 16 pointerSpec) = .ok (pointerText p ++ [0]) := by
  have lead : radixLead p.toNat 16 (utoa64 p.toNat 16 false) pointerSpec.flags =
      if p = 0 then [] else ascii "0x" := by
    by_cases zero : p = 0
    · subst zero
      rfl
    · have nonzero : p.toNat ≠ 0 := fun same => zero (BitVec.eq_of_toNat_eq same)
      rw [if_neg zero]
      simp [radixLead, pointerSpec, nonzero]
  have short : (utoa64 p.toNat 16 false).length ≤ 64 :=
    utoa64_length (by decide) (by decide) p.isLt false
  have digits := utoa64_ne_nil p.toNat 16 false
  have one : 1 ≤ (utoa64 p.toNat 16 false).length := List.length_pos_iff.mpr digits
  have leadShort : (if p = 0 then [] else ascii "0x").length ≤ 2 := by
    split <;> decide
  have fits : fieldWidth (if p = 0 then [] else ascii "0x").length
      (utoa64 p.toNat 16 false).length pointerSpec ≤ 255 := by
    have width : pointerSpec.width = -1 := rfl
    have precision : pointerSpec.precision = 1 := rfl
    rw [fieldWidth, width, precision]
    omega
  have noZeros : 1 - (utoa64 p.toNat 16 false).length = 0 := by omega
  have unpadded : padField pointerSpec (if p = 0 then [] else ascii "0x")
      (zeroExtend pointerSpec.precision (utoa64 p.toNat 16 false)) = pointerText p := by
    simp [padField, zeroExtend, pointerSpec, pointerText, noZeros]
  calc leftInBuf (formatUnsigned p.toNat 16 pointerSpec)
      = leftInBuf (formatNumber (if p = 0 then [] else ascii "0x") (utoa64 p.toNat 16 false)
          pointerSpec) := by
        rw [← lead]
        rfl
    _ = .ok (pointerText p ++ [0]) := by
        rw [formatNumber_text digits fits, unpadded]
        rfl

theorem printed_pointer (p : Word) : printed " %p" p = .ok (pointerCalls p) := by
  have first : nextDirective checkInt ⟨ascii " %p", fun _ => p⟩ =
      .ok (.literal (chr ' '), ⟨ascii "%p", fun _ => p⟩) := rfl
  have second : nextDirective checkInt ⟨ascii "%p", fun _ => p⟩ =
      .ok (.conv pointerSpec (.unsigned 16 p.toNat), ⟨[], fun _ => p⟩) := rfl
  have field : render (fun _ => []) (.conv pointerSpec (.unsigned 16 p.toNat)) =
      .ok (pointerText p ++ [0]) := formatUnsigned_pointer p
  have reached : formatCall (fun _ => []) (ascii " %p") (fun _ => p) =
      ([(.literal (chr ' '), []), (.conv pointerSpec (.unsigned 16 p.toNat), pointerText p ++ [0])],
        none) := by
    have space : (⟨ascii " %p", fun _ => p⟩ : FmtCursor).peek ≠ 0 := show chr ' ' ≠ 0 by decide
    have percent : (⟨ascii "%p", fun _ => p⟩ : FmtCursor).peek ≠ 0 := show chr '%' ≠ 0 by decide
    rw [formatCall, formatLoop_ok space first, formatLoop_ok percent second, field,
      formatLoop_end rfl]
    rfl
  rw [printed, printf, reached]
  rfl

theorem printed_newline : printed "\n" 0 = .ok [.putchar (chr '\n')] := by
  have first : nextDirective checkInt ⟨ascii "\n", fun _ => 0⟩ =
      .ok (.literal (chr '\n'), ⟨[], fun _ => 0⟩) := rfl
  have reached : formatCall (fun _ => []) (ascii "\n") (fun _ => 0) =
      ([(.literal (chr '\n'), [])], none) := by
    rw [formatCall, formatLoop_ok (by decide) first, formatLoop_end rfl]
    rfl
  rw [printed, printf, reached]
  rfl

/-! ### The pointers of the nodes -/

/-- The nodes do not overlap. -/
def NodesApart (N : List Word) : Prop := ∀ a ∈ N, ∀ b ∈ N, a ≠ b → Apart a 16 b 16

/-- The pointers in memory. -/
def linksOf (m : Mem) : Pointers Word := ⟨lstNext m, lstPrev m⟩

section

variable {N : List Word} {m m' : Mem} {a b e h p v : Word}

theorem fields_apart (e : Word) : Apart e 8 (e + 8) 8 := by
  unfold Apart
  constructor <;> bv_omega

theorem NodesApart.fields (nodes : NodesApart N) (left : a ∈ N) (right : b ∈ N) (other : a ≠ b) :
    Apart a 8 b 8 ∧ Apart a 8 (b + 8) 8 ∧ Apart (a + 8) 8 b 8 ∧ Apart (a + 8) 8 (b + 8) 8 := by
  have apart := nodes a left b right other
  unfold Apart at apart ⊢
  refine ⟨⟨?_, ?_⟩, ⟨?_, ?_⟩, ⟨?_, ?_⟩, ⟨?_, ?_⟩⟩ <;> bv_omega

theorem setLstNext_agree (nodes : NodesApart N) (node : a ∈ N) :
    (linksOf (setLstNext m a v)).AgreeOn (· ∈ N) ((linksOf m).setNext a v) := by
  intro b inside
  by_cases same : b = a
  · subst same
    refine ⟨?_, ?_⟩
    · rw [Pointers.setNext_next_self]
      exact load64_store64_self m _ v
    · exact load64_store64_apart m v (fields_apart b).symm
  · obtain ⟨-, -, prev, next⟩ := nodes.fields node inside (Ne.symm same)
    refine ⟨?_, load64_store64_apart m v prev⟩
    rw [Pointers.setNext_next_of_ne same]
    exact load64_store64_apart m v next

theorem setLstPrev_agree (nodes : NodesApart N) (node : a ∈ N) :
    (linksOf (setLstPrev m a v)).AgreeOn (· ∈ N) ((linksOf m).setPrev a v) := by
  intro b inside
  by_cases same : b = a
  · subst same
    refine ⟨load64_store64_apart m v (fields_apart b), ?_⟩
    rw [Pointers.setPrev_prev_self]
    exact load64_store64_self m _ v
  · obtain ⟨prev, next, -, -⟩ := nodes.fields node inside (Ne.symm same)
    refine ⟨load64_store64_apart m v next, ?_⟩
    rw [Pointers.setPrev_prev_of_ne same]
    exact load64_store64_apart m v prev

theorem lstInit_agree (nodes : NodesApart N) (node : h ∈ N) :
    (linksOf (lstInit m h)).AgreeOn (· ∈ N) ((linksOf m).init h) :=
  (setLstPrev_agree nodes node).trans ((setLstNext_agree nodes node).setPrev h h)

/-- **The two stores of `lst_remove`.** The second one reads the pointers of `e` again, after the
first: they are as they were. -/
theorem lstRemove_agree (nodes : NodesApart N) (node : e ∈ N) (prev : lstPrev m e ∈ N)
    (next : lstNext m e ∈ N) :
    (linksOf (lstRemove m e)).AgreeOn (· ∈ N) ((linksOf m).unlink e) := by
  have first : (linksOf (setLstNext m (lstPrev m e) (lstNext m e))).AgreeOn (· ∈ N)
      ((linksOf m).setNext (lstPrev m e) (lstNext m e)) := setLstNext_agree nodes prev
  have samePrev : lstPrev (setLstNext m (lstPrev m e) (lstNext m e)) e = lstPrev m e :=
    (first e node).2
  have sameNext : lstNext (setLstNext m (lstPrev m e) (lstNext m e)) e = lstNext m e := by
    have read := (first e node).1
    by_cases same : e = lstPrev m e
    · rw [← same, Pointers.setNext_next_self] at read
      rw [← same]
      exact read
    · rw [Pointers.setNext_next_of_ne same] at read
      exact read
  unfold lstRemove
  dsimp only
  rw [samePrev, sameNext]
  exact (setLstPrev_agree nodes next).trans (first.setPrev _ _)

/-- **The four stores of `lst_push`.** -/
theorem lstPush_agree (nodes : NodesApart N) (head : h ∈ N) (node : p ∈ N)
    (next : lstNext m h ∈ N) (other : h ≠ p) :
    (linksOf (lstPush m h p)).AgreeOn (· ∈ N) ((linksOf m).insert h p) := by
  have first := setLstNext_agree (v := lstNext m h) (m := m) nodes node
  have second := (setLstPrev_agree (v := h) nodes node).trans (first.setPrev p h)
  have same : lstNext (setLstPrev (setLstNext m p (lstNext m h)) p h) h = lstNext m h := by
    have read := (second h head).1
    rw [Pointers.setPrev_next, Pointers.setNext_next_of_ne other] at read
    exact read
  unfold lstPush
  dsimp only
  rw [same]
  have third := (setLstPrev_agree (v := p) nodes next).trans (second.setPrev (lstNext m h) p)
  exact (setLstNext_agree nodes head).trans (third.setNext h p)

/-- Other fields of the objects may change. -/
theorem sameOn_agree (same : ∀ a ∈ N, SameOn a 16 m m') :
    (linksOf m).AgreeOn (· ∈ N) (linksOf m') := by
  intro a node
  have next : SameOn (a + 8) 8 m m' := (same a node).mono (by bv_omega)
  have prev : SameOn a 8 m m' := (same a node).mono (by bv_omega)
  exact ⟨next.load64.symm, prev.load64.symm⟩

end

/-! ### Runs -/

/-- A call. Between calls the owners of the objects write to other memory. -/
inductive LstOp
  | init (lst : Word)
  | push (lst p : Word)
  | pop (lst : Word)
  | remove (e : Word)
  | empty (lst : Word)
  | print (lst : Word)
  | other (write : Mem → Mem)

/-- What a call returns or prints. -/
inductive LstResult
  | unit
  | node (p : Word)
  | flag (b : Bool)
  | text (calls : List TtyCall)
  deriving DecidableEq

def lstExec (fuel : Nat) (m : Mem) : LstOp → Except LstStop (LstResult × Mem)
  | .init lst => .ok (.unit, lstInit m lst)
  | .push lst p => .ok (.unit, lstPush m lst p)
  | .pop lst => do
    let (p, m) ← lstPop m lst
    .ok (.node p, m)
  | .remove e => .ok (.unit, lstRemove m e)
  | .empty lst => .ok (.flag (lstEmpty m lst), m)
  | .print lst => do
    let calls ← lstPrint m lst fuel
    .ok (.text calls, m)
  | .other write => .ok (.unit, write m)

/-- A run: the results, and what stops it, if anything. -/
def lstRun (fuel : Nat) (m : Mem) : List LstOp → List LstResult × Option LstStop × Mem
  | [] => ([], none, m)
  | op :: ops =>
    match lstExec fuel m op with
    | .error stop => ([], some stop, m)
    | .ok (result, m) =>
      let (results, stop, m) := lstRun fuel m ops
      (result :: results, stop, m)

/-- **A call on the lists**, as far as it is meant to be made: with heads, with a new node that is in
no list, and with a node to remove that is in a list or was, its old neighbours now in this order in
one list. -/
inductive LstStep (N : List Word) (s : HeadLists Word) :
    LstOp → Except LstStop LstResult → HeadLists Word → Prop
  | init {lst : Word} (node : lst ∈ N) (own : s.Own lst lst) :
    LstStep N s (.init lst) (.ok .unit) (s.set lst [] (Function.update s.left lst none))
  | push {lst p : Word} {xs : List Word} (held : s.elems lst = some xs) (node : p ∈ N)
    (loose : s.Loose p) :
    LstStep N s (.push lst p) (.ok .unit) (s.set lst (p :: xs) (Function.update s.left p none))
  | pop {lst p : Word} {xs : List Word} (held : s.elems lst = some (p :: xs)) :
    LstStep N s (.pop lst) (.ok (.node p))
      (s.set lst xs (Function.update s.left p (some (lst, xs.headD lst))))
  | popEmpty {lst : Word} (held : s.elems lst = some []) :
    LstStep N s (.pop lst) (.error (.panic "lst_pop")) s
  | remove {lst e : Word} {pre post : List Word} (held : s.elems lst = some (pre ++ e :: post)) :
    LstStep N s (.remove e) (.ok .unit) (s.set lst (pre ++ post)
      (Function.update s.left e (some (pre.getLastD lst, post.headD lst))))
  | removeAgain {lst e : Word} {pre ys post : List Word}
    (held : s.elems lst = some (pre ++ ys ++ post))
    (was : s.left e = some (pre.getLastD lst, post.headD lst)) :
    LstStep N s (.remove e) (.ok .unit) (s.set lst (pre ++ post) s.left)
  | empty {lst : Word} {xs : List Word} (held : s.elems lst = some xs) :
    LstStep N s (.empty lst) (.ok (.flag xs.isEmpty)) s
  | print {lst : Word} {xs : List Word} (held : s.elems lst = some xs) :
    LstStep N s (.print lst)
      (.ok (.text (xs.flatMap pointerCalls ++ [.putchar (chr '\n')]))) s
  | other {write : Mem → Mem} (apart : ∀ m, ∀ a ∈ N, SameOn a 16 m (write m)) :
    LstStep N s (.other write) (.ok .unit) s

/-- A call that returns, with its result. -/
def LstReturns (N : List Word) (s : HeadLists Word) (call : LstOp × LstResult) (s' : HeadLists Word) :
    Prop :=
  LstStep N s call.1 (.ok call.2) s'

section

variable {N : List Word} {m : Mem} {s s' : HeadLists Word} {lst : Word} {xs : List Word} {fuel : Nat}

/-- The head's own pointers, and that its successor is a node. -/
theorem held_next (rings : HeadRings (· ∈ N) (linksOf m) s) (held : s.elems lst = some xs) :
    lst ∈ N ∧ lstNext m lst = xs.headD lst ∧ lstNext m lst ∈ N := by
  have ring := rings.ring lst xs held
  exact ⟨rings.node lst xs held lst List.mem_cons_self, (head_next ring).1,
    rings.node lst xs held _ (ring.next_mem List.mem_cons_self)⟩

/-- A head is its own successor exactly when there is no element. -/
theorem next_eq_head_iff (rings : HeadRings (· ∈ N) (linksOf m) s) (held : s.elems lst = some xs) :
    lstNext m lst = lst ↔ xs = [] := by
  rw [(held_next rings held).2.1]
  cases xs with
  | nil => simp
  | cons x xs =>
    have other : x ≠ lst := fun same =>
      (List.nodup_cons.mp (rings.nodup lst _ held)).1 (same ▸ List.mem_cons_self)
    simp [other]

/-- The list is no longer than the nodes are many. -/
theorem held_length (rings : HeadRings (· ∈ N) (linksOf m) s) (held : s.elems lst = some xs) :
    xs.length < N.length := by
  have sub := (List.subperm_of_subset (rings.nodup lst xs held) (rings.node lst xs held)).length_le
  simpa using sub

/-- The printing loop prints the nodes that the loop passes. -/
theorem lstPrintLoop_nodes : ∀ {fuel : Nat} {p : Word} {ys : List Word},
    loopNodes (lstNext m) lst fuel p = some ys →
      lstPrintLoop m lst fuel p = .ok (ys.flatMap pointerCalls ++ [.putchar (chr '\n')]) := by
  intro fuel
  induction fuel with
  | zero => intro p ys walked; cases walked
  | succ fuel ih =>
    intro p ys walked
    rw [loopNodes] at walked
    by_cases home : p = lst
    · rw [if_pos home] at walked
      cases walked
      rw [lstPrintLoop, if_neg (not_not_intro home)]
      exact printed_newline
    · rw [if_neg home] at walked
      obtain ⟨zs, later, rfl⟩ := Option.map_eq_some_iff.mp walked
      rw [lstPrintLoop, if_pos home, printed_pointer, ih later]
      simp [bind, Except.bind]

/-- **`lst_remove`** of a node whose old or present neighbours are nodes of one list. -/
theorem lstRemove_rings (nodes : NodesApart N) {e : Word} {pre ys post : List Word}
    (rings : HeadRings (· ∈ N) (linksOf m) s) (held : s.elems lst = some (pre ++ ys ++ post))
    (node : e ∈ N) (prev : lstPrev m e = pre.getLastD lst) (next : lstNext m e = post.headD lst)
    (unlinked : HeadRings (· ∈ N) ((linksOf m).unlink e) s') :
    HeadRings (· ∈ N) (linksOf (lstRemove m e)) s' := by
  obtain ⟨last, first⟩ := places_mem lst pre ys post
  refine unlinked.congr (lstRemove_agree nodes node ?_ ?_).symm
  · rw [prev]
    exact rings.node lst _ held _ last
  · rw [next]
    exact rings.node lst _ held _ first

theorem lstRemove_member (nodes : NodesApart N) {e : Word} {pre post : List Word}
    (rings : HeadRings (· ∈ N) (linksOf m) s) (held : s.elems lst = some (pre ++ e :: post)) :
    HeadRings (· ∈ N) (linksOf (lstRemove m e)) (s.set lst (pre ++ post)
      (Function.update s.left e (some (pre.getLastD lst, post.headD lst)))) := by
  obtain ⟨prev, next⟩ := neighbours (rings.ring lst _ held)
  have between : s.elems lst = some (pre ++ [e] ++ post) := by simpa using held
  have node : e ∈ N := rings.node lst _ held e (by simp)
  exact lstRemove_rings nodes rings between node prev next (rings.unlink held)

/-- **One call**: the code does what the abstract lists do. -/
theorem LstStep.refines (nodes : NodesApart N) (enough : N.length ≤ fuel) {op : LstOp}
    {outcome : Except LstStop LstResult} (rings : HeadRings (· ∈ N) (linksOf m) s)
    (call : LstStep N s op outcome s') :
    ∃ m', lstExec fuel m op = outcome.map (·, m') ∧ HeadRings (· ∈ N) (linksOf m') s' := by
  cases call with
  | init node own => exact ⟨_, rfl, (rings.init node own).congr (lstInit_agree nodes node).symm⟩
  | @push lst p xs held node loose =>
    obtain ⟨head, -, next⟩ := held_next rings held
    have other : lst ≠ p := fun same => loose lst xs held (same ▸ List.mem_cons_self)
    exact ⟨_, rfl, (rings.insert held node loose).congr
      (lstPush_agree nodes head node next other).symm⟩
  | @pop lst p xs held =>
    have first : lstNext m lst = p := (held_next rings held).2.1
    have filled : lstNext m lst ≠ lst := fun same =>
      List.cons_ne_nil p xs ((next_eq_head_iff rings held).mp same)
    have split : s.elems lst = some ([] ++ p :: xs) := held
    refine ⟨lstRemove m p, ?_, lstRemove_member nodes rings split⟩
    rw [lstExec, lstPop, if_neg filled, first]
    rfl
  | popEmpty held =>
    refine ⟨m, ?_, rings⟩
    rw [lstExec, lstPop, if_pos ((next_eq_head_iff rings held).mpr rfl)]
    rfl
  | remove held => exact ⟨_, rfl, lstRemove_member nodes rings held⟩
  | removeAgain held was =>
    obtain ⟨node, -, prev, next⟩ := rings.left _ _ _ was
    exact ⟨_, rfl, lstRemove_rings nodes rings held node prev next (rings.unlink_again held was)⟩
  | @empty lst xs held =>
    refine ⟨m, ?_, rings⟩
    have flag : lstEmpty m lst = xs.isEmpty := by
      rw [lstEmpty, Bool.eq_iff_iff, decide_eq_true_iff, next_eq_head_iff rings held,
        List.isEmpty_iff]
    rw [lstExec, flag]
    rfl
  | @print lst xs held =>
    refine ⟨m, ?_, rings⟩
    have walked : loopNodes (lstNext m) lst fuel (lstNext m lst) = some xs :=
      loopNodes_eq (rings.ring lst xs held) (rings.nodup lst xs held)
        ((held_length rings held).trans_le enough)
    rw [lstExec, lstPrint, lstPrintLoop_nodes walked]
    rfl
  | other apart => exact ⟨_, rfl, rings.congr (sameOn_agree (apart m))⟩

/-- A run goes on behind calls that have returned. -/
theorem lstRun_append (ops more : List LstOp) : ∀ {m m' : Mem} {results : List LstResult},
    lstRun fuel m ops = (results, none, m') →
      lstRun fuel m (ops ++ more) =
        (results ++ (lstRun fuel m' more).1, (lstRun fuel m' more).2) := by
  induction ops with
  | nil =>
    rintro m m' results ran
    cases ran
    rfl
  | cons op ops ih =>
    intro m m' results ran
    rw [List.cons_append, lstRun]
    rw [lstRun] at ran
    cases called : lstExec fuel m op with
    | error stop =>
      rw [called] at ran
      cases ran
    | ok value =>
      rw [called] at ran
      dsimp only at ran ⊢
      obtain ⟨first, last⟩ := Prod.mk.inj ran
      rw [ih (Prod.ext rfl last), ← first]
      rfl

/-- A run from a state in which the pointers hold the lists. -/
theorem returns_refines (nodes : NodesApart N) (enough : N.length ≤ fuel)
    {calls : List (LstOp × LstResult)} (run : Run (LstReturns N) s calls s') :
    ∀ {m : Mem}, HeadRings (· ∈ N) (linksOf m) s →
      ∃ m', lstRun fuel m (calls.map Prod.fst) = (calls.map Prod.snd, none, m') ∧
        HeadRings (· ∈ N) (linksOf m') s' := by
  induction run with
  | nil => exact fun {m} rings => ⟨m, rfl, rings⟩
  | cons call rest ih =>
    intro m rings
    obtain ⟨m₁, done, rings₁⟩ := LstStep.refines nodes enough rings call
    obtain ⟨m₂, ran, rings₂⟩ := ih rings₁
    refine ⟨m₂, ?_, rings₂⟩
    rw [List.map_cons, lstRun, done]
    simp only [Except.map, ran, List.map_cons]

end

/-- No list is in use. -/
def noLists : HeadLists Word := ⟨fun _ => none, fun _ => none⟩

theorem noLists_rings (N : List Word) (m : Mem) : HeadRings (· ∈ N) (linksOf m) noLists where
  ring _ _ held := by cases held
  nodup _ _ held := by cases held
  node _ _ held := by cases held
  apart _ _ held := by cases held
  left _ _ _ was := by cases was

/-- **The lists of `list.c` over any run**, from any memory: the calls return and print what the
abstract lists give, and afterwards each list is in memory, in order along `next` and in reverse along
`prev`. The only call that stops the run is a pop from an empty list. -/
theorem lst_run_refines {N : List Word} (nodes : NodesApart N) {fuel : Nat}
    (enough : N.length ≤ fuel) {calls : List (LstOp × LstResult)} {s : HeadLists Word}
    (run : Run (LstReturns N) noLists calls s) (m : Mem) :
    ∃ m', lstRun fuel m (calls.map Prod.fst) = (calls.map Prod.snd, none, m') ∧
      (∀ lst xs, s.elems lst = some xs →
        loopNodes (lstNext m') lst fuel (lstNext m' lst) = some xs ∧
          loopNodes (lstPrev m') lst fuel (lstPrev m' lst) = some xs.reverse) ∧
      ∀ op why s', LstStep N s op (.error why) s' → why = .panic "lst_pop" ∧
        ∀ ops, lstRun fuel m (calls.map Prod.fst ++ op :: ops) =
          (calls.map Prod.snd, some why, m') := by
  obtain ⟨m', ran, rings⟩ := returns_refines nodes enough run (noLists_rings N m)
  refine ⟨m', ran, fun lst xs held => ?_, fun op why s' stopped => ⟨?_, fun ops => ?_⟩⟩
  · have ring := rings.ring lst xs held
    have nodup := rings.nodup lst xs held
    have short := (held_length rings held).trans_le enough
    have forward := loopNodes_eq ring nodup short
    have back := ring_reverse ring
    have nodup' : (lst :: xs.reverse).Nodup :=
      ((List.reverse_perm xs).cons lst).nodup_iff.mpr nodup
    have backward := loopNodes_eq (l := ⟨lstPrev m', lstNext m'⟩) back nodup' (by simpa using short)
    exact ⟨forward, backward⟩
  · cases stopped
    rfl
  · obtain ⟨_, failed, -⟩ := stopped.refines nodes enough rings
    rw [lstRun_append _ _ ran, lstRun, failed]
    exact congrArg (·, some why, m') (List.append_nil _)

/-- A node removed twice: the one pushed in between is lost, and the next pop panics. -/
theorem lst_run_refines_removeTwice :
    ∃ m', lstRun 3 (fun _ => 0) [.init 0x1000, .push 0x1000 0x2000, .remove 0x2000,
        .push 0x1000 0x3000, .remove 0x2000, .pop 0x1000] =
      ([.unit, .unit, .unit, .unit, .unit], some (.panic "lst_pop"), m') := by
  have nodes : NodesApart [0x1000, 0x2000, 0x3000] := by
    simp [NodesApart, Apart]
  have own : ∀ e, noLists.Own 0x1000 e := fun e k ys held => by cases held
  have kept : ∀ {s : HeadLists Word} {xs left} e, s.Own 0x1000 e →
      (s.set 0x1000 xs left).Own 0x1000 e :=
    fun e own k ys held other => by
      rcases HeadLists.set_cases held with ⟨same, -⟩ | ⟨-, held⟩
      · exact absurd same other
      · exact own k ys held other
  let s₁ := noLists.set 0x1000 [] (Function.update noLists.left 0x1000 none)
  let s₂ := s₁.set 0x1000 [0x2000] (Function.update s₁.left 0x2000 none)
  let s₃ := s₂.set 0x1000 [] (Function.update s₂.left 0x2000 (some (0x1000, 0x1000)))
  let s₄ := s₃.set 0x1000 [0x3000] (Function.update s₃.left 0x3000 none)
  let s₅ := s₄.set 0x1000 [] s₄.left
  have held₁ : s₁.elems 0x1000 = some [] := HeadLists.set_elems_self
  have held₂ : s₂.elems 0x1000 = some ([] ++ 0x2000 :: []) := HeadLists.set_elems_self
  have held₃ : s₃.elems 0x1000 = some [] := HeadLists.set_elems_self
  have held₄ : s₄.elems 0x1000 = some ([] ++ [0x3000] ++ []) := HeadLists.set_elems_self
  have held₅ : s₅.elems 0x1000 = some [] := HeadLists.set_elems_self
  have was : s₄.left 0x2000 = some ([].getLastD 0x1000, [].headD 0x1000) := by
    simp [s₄, s₃, HeadLists.set]
  have made : LstStep [0x1000, 0x2000, 0x3000] noLists (.init 0x1000) (.ok .unit) s₁ :=
    .init (by decide) (own _)
  have pushed : LstStep [0x1000, 0x2000, 0x3000] s₁ (.push 0x1000 0x2000) (.ok .unit) s₂ :=
    .push held₁ (by decide) (HeadLists.loose_set (own _) (by decide))
  have removed : LstStep [0x1000, 0x2000, 0x3000] s₂ (.remove 0x2000) (.ok .unit) s₃ :=
    .remove held₂
  have pushedAgain : LstStep [0x1000, 0x2000, 0x3000] s₃ (.push 0x1000 0x3000) (.ok .unit) s₄ :=
    .push held₃ (by decide) (HeadLists.loose_set (kept _ (kept _ (own _))) (by decide))
  have removedAgain : LstStep [0x1000, 0x2000, 0x3000] s₄ (.remove 0x2000) (.ok .unit) s₅ :=
    .removeAgain held₄ was
  have run : Run (LstReturns [0x1000, 0x2000, 0x3000]) noLists
      [(.init 0x1000, .unit), (.push 0x1000 0x2000, .unit), (.remove 0x2000, .unit),
        (.push 0x1000 0x3000, .unit), (.remove 0x2000, .unit)] s₅ :=
    .cons made (.cons pushed (.cons removed (.cons pushedAgain (.cons removedAgain (.nil _)))))
  obtain ⟨m', -, -, stops⟩ := lst_run_refines nodes (Nat.le_refl 3) run fun _ => 0
  exact ⟨m', (stops (.pop 0x1000) _ _ (.popEmpty held₅)).2 []⟩

end ShipOS
