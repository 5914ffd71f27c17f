/-
**The two format interpreters (`printf`, `serial_printf`).**

Both interpreters go through the directives of the format (`formatCall`); the output calls of each
are its own (`printfCalls`, `serialChars`).

* `formatLoop_safe_iff`, `format_safe_iff` — no fault is reached exactly when every directive of the
  format fits;
* `printf_chars_iff` — both interpreters output the same characters exactly when no `%c` that is
  reached is given a NUL.
-/

import Mathlib.Algebra.Order.BigOperators.Group.List
import ShipOS.Tty.Directives

namespace ShipOS

open ByteMem Buffer

/-! ### The directives that fit -/

/-- What a directive leaves in `buf`. -/
def render (text : Word → List Byte) : Directive → Except Fault (List Byte)
  | .conv spec (.signed num) => leftInBuf (formatSigned num 10 spec)
  | .conv spec (.unsigned radix num) => leftInBuf (formatUnsigned num radix spec)
  | .conv spec (.string str) => leftInBuf (formatString bufSize text str bufSize spec)
  | _ => .ok []

/-- The directives of a format, with unbounded integers for widths and precisions. -/
def directives (format : List Byte) (varargs : Nat → Word) : List Directive :=
  (formatLoop .ok (fun _ => .ok []) ⟨format, varargs⟩).1.map Prod.fst

/-- The number of characters of a number, with its sign or prefix, its zeros and its padding. -/
def Conv.numberLength (spec : FmtSpec) : Conv → Int
  | .signed num => signedLength num 10 spec
  | .unsigned radix num => unsignedLength num radix spec
  | _ => 0

/-- The width and the precision are `int`s, and a number has at most 255 characters. -/
def Directive.Fits : Directive → Prop
  | .literal _ => True
  | .conv spec kind => spec.InRange ∧ kind.numberLength spec ≤ 255

theorem render_ok_iff (text : Word → List Byte) {d : Directive} (inRange : d.InRange) :
    (∃ buf, render text d = .ok buf) ↔ d.Fits := by
  cases d with
  | literal c => exact ⟨fun _ => trivial, fun _ => ⟨[], rfl⟩⟩
  | conv spec kind =>
    have fits : Directive.Fits (.conv spec kind) ↔ kind.numberLength spec ≤ 255 :=
      and_iff_right inRange
    rw [fits]
    cases kind with
    | signed num => exact leftInBuf_ok_iff.trans (formatNumber_ok_iff (utoa64_ne_nil _ _ _))
    | unsigned radix num => exact leftInBuf_ok_iff.trans (formatNumber_ok_iff (utoa64_ne_nil _ _ _))
    | string str =>
      exact ⟨fun _ => show (0 : Int) ≤ 255 by decide,
        fun _ => leftInBuf_ok_iff.mpr (formatString_ok text str inRange.1)⟩
    | char c => exact ⟨fun _ => show (0 : Int) ≤ 255 by decide, fun _ => ⟨[], rfl⟩⟩
    | nothing => exact ⟨fun _ => show (0 : Int) ≤ 255 by decide, fun _ => ⟨[], rfl⟩⟩
    | unknown c => exact ⟨fun _ => show (0 : Int) ≤ 255 by decide, fun _ => ⟨[], rfl⟩⟩

theorem Directive.Fits.inRange {d : Directive} (fits : d.Fits) : d.InRange := by
  cases d with
  | literal c => trivial
  | conv spec kind => exact fits.1

/-- **No fault is reached exactly when every directive of the format fits.** -/
theorem formatLoop_safe_iff (text : Word → List Byte) (cur : FmtCursor) :
    (formatLoop checkInt (render text) cur).2 = none ↔
      ∀ d ∈ (formatLoop .ok (fun _ => .ok []) cur).1.map Prod.fst, d.Fits := by
  induction cur using FmtCursor.rest_induction with
  | done cur done =>
    rw [formatLoop_end done, formatLoop_end done]
    simp
  | turn cur more ih =>
    obtain ⟨d, after, ideal, checked⟩ := nextDirective_checked cur
    have rest := ih after (nextDirective_length more ideal)
    rw [formatLoop_ok more ideal, List.map_cons, List.forall_mem_cons, ← rest]
    by_cases inRange : d.InRange
    · rw [if_pos inRange] at checked
      rw [formatLoop_ok more checked, ← render_ok_iff text inRange]
      cases render text d with
      | error fault => simp
      | ok buf => simp
    · rw [if_neg inRange] at checked
      rw [formatLoop_error more checked]
      exact ⟨nofun, fun both => absurd both.1.inRange inRange⟩

/-! ### `printf` -/

/-- The output calls of `printf`: `putchar` followed by `write_buffer`, and `print`. -/
inductive TtyCall
  | putchar (c : Byte)
  | print (string : List Byte)
  deriving DecidableEq, Repr

/-- The characters that a call passes to `putchar`. -/
def TtyCall.chars : TtyCall → List Byte
  | .putchar c => [c]
  | .print string => cstr string

/-- The padding of a `%c`, on the left or on the right of its character. -/
def padChar {Out : Type} (spec : FmtSpec) (space char : Out) : List Out :=
  let pad := if spec.width > 1 then List.replicate (spec.width - 1).toNat space else []
  (if spec.flags.left then [] else pad) ++ [char] ++ (if spec.flags.left then pad else [])

def printfCalls (buf : List Byte) : Directive → List TtyCall
  | .literal c => [.putchar c]
  | .conv _ (.signed _) | .conv _ (.unsigned _ _) | .conv _ (.string _) => [.print buf]
  | .conv spec (.char c) => padChar spec (.putchar (chr ' ')) (.print [c, 0])
  | .conv _ .nothing => []
  | .conv _ (.unknown c) => .putchar (chr '%') :: if c ≠ 0 then [.print [c, 0]] else []

/-- The directives that a call of either interpreter reaches, with what `buf` holds, and its
fault. -/
def formatCall (text : Word → List Byte) (format : List Byte) (varargs : Nat → Word) :
    List (Directive × List Byte) × Option Fault :=
  formatLoop checkInt (render text) ⟨format, varargs⟩

/-- `printf(format, ...)`: its output calls, and the fault that ends it, if any. -/
def printf (text : Word → List Byte) (format : List Byte) (varargs : Nat → Word) :
    List TtyCall × Option Fault :=
  let (reached, fault) := formatCall text format varargs
  (reached.flatMap fun r => printfCalls r.2 r.1, fault)

/-! ### `serial_printf` -/

/-- `get_port_index` in the array of initialized ports; `none` for `-1`. -/
def getPortIndex (ports : List (BitVec 16)) (port : BitVec 16) : Option Nat := ports.idxOf? port

/-- The characters that `serial_write` passes to `serial_putchar`. -/
def serialWrite (ports : List (BitVec 16)) (port : BitVec 16) (str : List Byte) : List Byte :=
  if getPortIndex ports port = none then [] else cstr str

/-- The characters that a directive passes to `serial_putchar`. -/
def serialChars (ports : List (BitVec 16)) (port : BitVec 16) (buf : List Byte) :
    Directive → List Byte
  | .literal c => [c]
  | .conv _ (.signed _) | .conv _ (.unsigned _ _) | .conv _ (.string _) =>
    serialWrite ports port buf
  | .conv spec (.char c) => padChar spec (chr ' ') c
  | .conv _ .nothing => []
  | .conv _ (.unknown c) => chr '%' :: if c ≠ 0 then [c] else []

/-- `serial_printf(port, format, ...)`: the characters it passes to `serial_putchar`, and the fault
that ends it, if any. -/
def serialPrintf (ports : List (BitVec 16)) (port : BitVec 16) (text : Word → List Byte)
    (format : List Byte) (varargs : Nat → Word) : List Byte × Option Fault :=
  if getPortIndex ports port = none then ([], none)
  else
    let (reached, fault) := formatCall text format varargs
    (reached.flatMap fun r => serialChars ports port r.2 r.1, fault)

/-- **Formatted output stays in bounds** (every store into `buf` below 256, every width, precision
and length an `int`) exactly when every directive of the format fits. -/
theorem format_safe_iff (ports : List (BitVec 16)) (port : BitVec 16) (text : Word → List Byte)
    (format : List Byte) (varargs : Nat → Word) :
    ((printf text format varargs).2 = none ↔ ∀ d ∈ directives format varargs, d.Fits) ∧
      ((serialPrintf ports port text format varargs).2 = none ↔
        getPortIndex ports port = none ∨ ∀ d ∈ directives format varargs, d.Fits) := by
  have safe := formatLoop_safe_iff text ⟨format, varargs⟩
  refine ⟨safe, ?_⟩
  unfold serialPrintf
  split <;> rename_i registered
  · exact ⟨fun _ => .inl registered, fun _ => rfl⟩
  · exact safe.trans (or_iff_right registered).symm

/-- **`buf` is overrun** by a number of width 256. -/
theorem wide_number_overruns :
    (printf (fun _ => []) (ascii "%256d") fun _ => 0).2 = some .overrun ∧
      (serialPrintf [0x3F8] 0x3F8 (fun _ => []) (ascii "%256d") fun _ => 0).2 = some .overrun := by
  decide +kernel

/-! ### The two outputs -/

theorem length_flatMap_le {α β : Type} {f g : α → List β} {xs : List α}
    (shorter : ∀ x ∈ xs, (f x).length ≤ (g x).length) :
    (xs.flatMap f).length ≤ (xs.flatMap g).length := by
  rw [List.length_flatMap, List.length_flatMap]
  exact List.sum_le_sum shorter

/-- Outputs that differ only where the first is shorter are the same exactly when it never is. -/
theorem flatMap_eq_iff {α β : Type} {f g : α → List β} : ∀ {xs : List α},
    (∀ x ∈ xs, f x = g x ∨ (f x).length < (g x).length) →
      (xs.flatMap f = xs.flatMap g ↔ ∀ x ∈ xs, f x = g x)
  | [], _ => by simp
  | x :: xs, differ => by
    obtain ⟨first, rest⟩ := List.forall_mem_cons.mp differ
    rw [List.flatMap_cons, List.flatMap_cons, List.forall_mem_cons, ← flatMap_eq_iff rest]
    constructor
    · intro same
      have le := length_flatMap_le fun y member =>
        (rest y member).elim (fun eq => (congrArg List.length eq).le) Nat.le_of_lt
      have lengths := congrArg List.length same
      rw [List.length_append, List.length_append] at lengths
      have eq : f x = g x := first.resolve_right (by omega)
      exact ⟨eq, List.append_cancel_left (eq ▸ same)⟩
    · intro both
      rw [both.1, both.2]

theorem cstr_char {c : Byte} (visible : c ≠ 0) : cstr [c, 0] = [c] := by
  rw [cstr, List.takeWhile_cons_of_pos (by simpa using visible)]
  rfl

/-- The characters of a `%c` in `printf`: its own one only where it is no NUL. -/
theorem padChar_chars (spec : FmtSpec) (c : Byte) :
    (padChar spec (TtyCall.putchar (chr ' ')) (.print [c, 0])).flatMap TtyCall.chars =
        padChar spec (chr ' ') c ∧ c ≠ 0 ∨
      ((padChar spec (TtyCall.putchar (chr ' ')) (.print [c, 0])).flatMap TtyCall.chars).length <
        (padChar spec (chr ' ') c).length ∧ c = 0 := by
  have spaces : ∀ n, (List.replicate n (TtyCall.putchar (chr ' '))).flatMap TtyCall.chars =
      List.replicate n (chr ' ') := by
    intro n
    rw [List.flatMap_replicate]
    exact List.flatten_replicate_singleton
  unfold padChar
  by_cases nul : c = 0
  · refine .inr ⟨?_, nul⟩
    cases spec.flags.left <;> split <;> simp [spaces, TtyCall.chars, cstr, nul]
  · refine .inl ⟨?_, nul⟩
    have one : TtyCall.chars (.print [c, 0]) = [c] := cstr_char nul
    cases spec.flags.left <;> split <;>
      simp only [List.flatMap_append, List.flatMap_cons, List.flatMap_nil, spaces, one,
        List.append_nil, if_true, if_false, Bool.false_eq_true]

/-- A `%c` that is given a NUL. -/
def Directive.NulChar : Directive → Prop
  | .conv _ (.char c) => c = 0
  | _ => False

section

variable {ports : List (BitVec 16)} {port : BitVec 16}

/-- One directive: the outputs are the same, or it is a `%c` of NUL and that of `printf` is
shorter. -/
theorem directive_chars (registered : getPortIndex ports port ≠ none) (buf : List Byte)
    (d : Directive) :
    (printfCalls buf d).flatMap TtyCall.chars = serialChars ports port buf d ∧ ¬ d.NulChar ∨
      ((printfCalls buf d).flatMap TtyCall.chars).length < (serialChars ports port buf d).length ∧
        d.NulChar := by
  have write : ([TtyCall.print buf].flatMap TtyCall.chars) = serialWrite ports port buf := by
    simp [TtyCall.chars, serialWrite, registered]
  cases d with
  | literal c => exact .inl ⟨rfl, id⟩
  | conv spec kind =>
    cases kind with
    | signed num => exact .inl ⟨write, id⟩
    | unsigned radix num => exact .inl ⟨write, id⟩
    | string str => exact .inl ⟨write, id⟩
    | char c => exact padChar_chars spec c
    | nothing => exact .inl ⟨rfl, id⟩
    | unknown c =>
      refine .inl ⟨?_, id⟩
      show TtyCall.chars (.putchar (chr '%')) ++
        (if c ≠ 0 then [TtyCall.print [c, 0]] else []).flatMap TtyCall.chars = _ :: ite _ _ _
      split <;> rename_i visible
      · rw [List.flatMap_singleton]
        exact congrArg (chr '%' :: ·) (cstr_char visible)
      · rfl

/-- The directives that a call reaches. -/
def reached (text : Word → List Byte) (format : List Byte) (varargs : Nat → Word) :
    List Directive :=
  (formatCall text format varargs).1.map Prod.fst

/-- **`printf` and `serial_printf` output the same characters exactly when no `%c` that they reach
is given a NUL**; they end alike. -/
theorem printf_chars_iff (registered : getPortIndex ports port ≠ none) (text : Word → List Byte)
    (format : List Byte) (varargs : Nat → Word) :
    (printf text format varargs).2 = (serialPrintf ports port text format varargs).2 ∧
      ((printf text format varargs).1.flatMap TtyCall.chars =
          (serialPrintf ports port text format varargs).1 ↔
        ∀ d ∈ reached text format varargs, ¬ d.NulChar) := by
  have serial : serialPrintf ports port text format varargs =
      ((formatCall text format varargs).1.flatMap fun r => serialChars ports port r.2 r.1,
        (formatCall text format varargs).2) := if_neg registered
  rw [serial]
  refine ⟨rfl, ?_⟩
  unfold printf reached
  dsimp only
  rw [List.flatMap_assoc, flatMap_eq_iff fun r _ =>
    (directive_chars registered r.2 r.1).imp And.left And.left]
  rw [List.forall_mem_map]
  refine forall₂_congr fun r _ => ?_
  obtain ⟨same, visible⟩ | ⟨shorter, nul⟩ := directive_chars registered r.2 r.1
  · exact iff_of_true same visible
  · exact iff_of_false (fun same => Nat.ne_of_lt shorter (congrArg List.length same)) (· nul)

/-- A hexadecimal number with its prefix, on the terminal and on the first serial port. -/
theorem printf_chars_iff_hex :
    (printf (fun _ => []) (ascii "%#x") fun _ => 255).1.flatMap TtyCall.chars =
      (serialPrintf [0x3F8] 0x3F8 (fun _ => []) (ascii "%#x") fun _ => 255).1 := by
  have one : reached (fun _ => []) (ascii "%#x") (fun _ => 255) =
      [.conv { flags := { hash := true } } (.unsigned 16 255)] := by decide +kernel
  have registered : getPortIndex [0x3F8] 0x3F8 ≠ none := by decide
  refine (printf_chars_iff registered _ _ _).2.mpr ?_
  rw [one, List.forall_mem_singleton]
  exact id

/-- **A NUL is lost on the terminal**: `printf("%c", 0)` outputs nothing. -/
theorem nul_char_lost :
    (printf (fun _ => []) (ascii "%c") fun _ => 0).1.flatMap TtyCall.chars = [] ∧
      (serialPrintf [0x3F8] 0x3F8 (fun _ => []) (ascii "%c") fun _ => 0).1 = [0] := by
  decide +kernel

end

end ShipOS
