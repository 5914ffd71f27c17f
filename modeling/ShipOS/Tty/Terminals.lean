/-
**The virtual terminals (`tty.c`, `vga.c`).**

Seven terminals share the VGA text memory: each has a buffer of 25 lines of 80 cells, a cursor and
its colours, and the screen shows the active one. A cell store outside the buffer of its terminal
stops a call with `TtyFault.cell`; a `printf` that overruns its own `buf` has no result either
(`TtyFault.format`).

* `putchar_spec` — a character keeps the cursor of its terminal inside the buffer or at the start of
  the line after it, and is stored inside;
* `execAll_spec`, `Console.printf_spec`, `setTty_spec` — output goes to the active terminal alone;
* `console_of_run` — after every call the screen shows the active terminal, and only that one has
  changed.
-/

import ShipOS.Lib.Runs
import ShipOS.Tty.Printf

namespace ShipOS

open ByteMem Runs

/-! ### Screens -/

/-- `enum vga_colors`, in the order of the codes. -/
inductive VgaColor
  | black | blue | green | cyan | red | magenta | brown | lightGray
  | darkGray | lightBlue | lightGreen | lightCyan | lightRed | lightMagenta | yellow | white
  deriving DecidableEq, Repr

/-- `struct char_with_color`: two bytes. -/
structure CharWithColor where
  character : Byte
  color : Byte
  deriving DecidableEq, Repr

/-- A buffer of `VGA_HEIGHT * VGA_WIDTH` cells. -/
abbrev Screen := Fin (25 * 80) → CharWithColor

def makeChar (value : Byte) (fg bg : VgaColor) : CharWithColor :=
  { character := value, color := BitVec.ofNat 8 (fg.ctorIdx + bg.ctorIdx <<< 4) }

/-- `memset(cells, 0, num)`: the first `num` bytes. -/
def clearBytes (num : Nat) (cells : Screen) : Screen := fun i =>
  { character := if 2 * i.val < num then 0 else (cells i).character
    color := if 2 * i.val + 1 < num then 0 else (cells i).color }

/-! ### One terminal -/

structure TtyStructure where
  ttyBuffer : Screen
  ttyId : Byte
  line : Nat
  pos : Nat
  bg : VgaColor
  fg : VgaColor

/-- The ways a call has no defined result. -/
inductive TtyFault
  /-- A cell store outside the buffer. -/
  | cell
  /-- A fault of the format interpreter. -/
  | format (fault : Fault)
  deriving DecidableEq, Repr

/-- Every line moves up by one; the last one is blank. -/
def scroll (t : TtyStructure) : TtyStructure :=
  { t with
    ttyBuffer := fun i =>
      if below : i.val + 80 < 25 * 80 then t.ttyBuffer ⟨i.val + 80, below⟩
      else makeChar 0 .black .black
    line := 25 - 1
    pos := 0 }

/-- `putchar`; `line` and `pos` are bytes. -/
def putchar (c : Byte) (t : TtyStructure) : Except TtyFault TtyStructure :=
  let t := if t.line ≥ 25 then scroll t else t
  if c = chr '\n' then .ok { t with line := (t.line + 1) % 256, pos := 0 }
  else if inside : t.line * 80 + t.pos < 25 * 80 then
    let pos := (t.pos + 1) % 256
    .ok { t with
      ttyBuffer :=
        Function.update t.ttyBuffer ⟨t.line * 80 + t.pos, inside⟩ (makeChar c t.fg t.bg)
      line := (t.line + pos / 80) % 256
      pos := pos % 80 }
  else .error .cell

/-! ### The console -/

/-- The screen, the terminals and the active one. -/
structure Console where
  vga : Screen
  ttyTerminals : Fin 7 → TtyStructure
  activeTty : Fin 7

namespace Console

variable (c : Console)

def active : TtyStructure := c.ttyTerminals c.activeTty

/-- The active terminal replaced. -/
def set (t : TtyStructure) : Console :=
  { c with ttyTerminals := Function.update c.ttyTerminals c.activeTty t }

def writeBuffer : Console := { c with vga := c.active.ttyBuffer }

def clearVga : Console := { c with vga := clearBytes (25 * 80) c.vga }

/-- The loop of `print`. -/
def putchars : List Byte → Console → Except TtyFault Console
  | [], c => .ok c
  | ch :: rest, c => do
    let t ← ShipOS.putchar ch c.active
    putchars rest (c.set t)

def print (string : List Byte) : Except TtyFault Console := do
  let c ← putchars (cstr string) c
  .ok c.writeBuffer

/-- An output call of `printf`. -/
def exec : TtyCall → Except TtyFault Console
  | .putchar ch => do
    let t ← ShipOS.putchar ch c.active
    .ok (c.set t).writeBuffer
  | .print string => c.print string

def execAll : List TtyCall → Console → Except TtyFault Console
  | [], c => .ok c
  | call :: rest, c => c.exec call >>= execAll rest

def printf (text : Word → List Byte) (format : List Byte) (varargs : Nat → Word) :
    Except TtyFault Console := do
  let (calls, fault) := ShipOS.printf text format varargs
  let c ← execAll calls c
  match fault with
  | none => .ok c
  | some fault => .error (.format fault)

def setFg (fg : VgaColor) : Console := c.set { c.active with fg := fg }

def setBg (bg : VgaColor) : Console := c.set { c.active with bg := bg }

/-- `clear_vga(); active_tty = tty_terminals + terminal;`. -/
def activate (terminal : Fin 7) : Console := { c.clearVga with activeTty := terminal }

/-- `set_tty`; the terminal logs its own number. -/
def setTty (terminal : BitVec 8) : Except TtyFault Console :=
  if valid : terminal.toNat < 7 then do
    let c := c.activate ⟨terminal.toNat, valid⟩
    let c ← c.printf (fun _ => []) (ascii "TTY %d\n") fun _ => c.active.ttyId.setWidth 64
    .ok c.writeBuffer
  else .ok c

def clearCurrentTty : Console :=
  (c.set { c.active with
    ttyBuffer := clearBytes (80 * 25) c.active.ttyBuffer, pos := 0, line := 0 }).clearVga

end Console

/-- A terminal as `init_tty` leaves it before its first output. -/
def initTerminal (i : Fin 7) : TtyStructure where
  ttyBuffer _ := { character := 0, color := 0 }
  ttyId := BitVec.ofNat 8 i.val
  line := 0
  pos := 0
  bg := .white
  fg := .black

/-- `init_tty` over any contents of the text memory. -/
def initTty (vga : Screen) : Except TtyFault Console := do
  let c ← Console.setTty { vga := vga, ttyTerminals := initTerminal, activeTty := 0 } 0
  c.printf (fun _ => []) (ascii "TTY subsystem initialized\n") fun _ => 0

/-- The terminals as `init_tty` sets them up, before any output. -/
def startConsole : Console := ⟨fun _ => ⟨0, 0⟩, initTerminal, 0⟩

/-- The calls of the terminal interface. -/
inductive TtyOp
  | print (string : List Byte)
  | printf (text : Word → List Byte) (format : List Byte) (varargs : Nat → Word)
  | setFg (fg : VgaColor)
  | setBg (bg : VgaColor)
  | setTty (terminal : BitVec 8)
  | clearCurrentTty

def TtyOp.exec (c : Console) : TtyOp → Except TtyFault Console
  | .print string => c.print string
  | .printf text format varargs => c.printf text format varargs
  | .setFg fg => .ok (c.setFg fg)
  | .setBg bg => .ok (c.setBg bg)
  | .setTty terminal => c.setTty terminal
  | .clearCurrentTty => .ok c.clearCurrentTty

/-! ### Cursors -/

/-- The cursor is in the buffer, or at the start of the line after its last one. -/
def CursorFits (t : TtyStructure) : Prop :=
  t.pos < 80 ∧ t.line ≤ 25 ∧ (t.line = 25 → t.pos = 0)

/-- **One character** is stored inside the buffer and keeps the cursor. -/
theorem putchar_spec (ch : Byte) {t : TtyStructure} (fits : CursorFits t) :
    ∃ t', putchar ch t = .ok t' ∧ CursorFits t' := by
  have scrolled : ∃ t₁, t₁ = (if t.line ≥ 25 then scroll t else t) ∧
      t₁.pos < 80 ∧ t₁.line < 25 := by
    refine ⟨_, rfl, ?_⟩
    split
    · exact ⟨show 0 < 80 by decide, show 24 < 25 by decide⟩
    · exact ⟨fits.1, by omega⟩
  obtain ⟨t₁, eq, pos, line⟩ := scrolled
  unfold putchar
  rw [← eq]
  dsimp only
  split
  · refine ⟨_, rfl, ?_, ?_, ?_⟩ <;> dsimp only <;> omega
  · rw [dif_pos (by omega)]
    refine ⟨_, rfl, ?_, ?_, ?_⟩ <;> dsimp only <;> omega

/-! ### Output -/

namespace Console

/-- Output to the active terminal of `c`: nothing else has changed but the screen. -/
structure Wrote (c c' : Console) : Prop where
  active : c'.activeTty = c.activeTty
  others : ∀ i, i ≠ c.activeTty → c'.ttyTerminals i = c.ttyTerminals i
  cursors : ∀ i, CursorFits (c'.ttyTerminals i)

/-- The screen shows the active terminal. -/
def Mirrors (c : Console) : Prop := c.vga = c.active.ttyBuffer

variable {c c' c'' : Console}

theorem Wrote.trans (first : Wrote c c') (second : Wrote c' c'') : Wrote c c'' where
  active := second.active.trans first.active
  others i other := (second.others i (first.active ▸ other)).trans (first.others i other)
  cursors := second.cursors

theorem Wrote.refl (cursors : ∀ i, CursorFits (c.ttyTerminals i)) : Wrote c c :=
  ⟨rfl, fun _ _ => rfl, cursors⟩

theorem Wrote.set (cursors : ∀ i, CursorFits (c.ttyTerminals i)) {t : TtyStructure}
    (fits : CursorFits t) : Wrote c (c.set t) where
  active := rfl
  others _ other := Function.update_of_ne other _ _
  cursors := (Function.forall_update_iff _ fun _ => CursorFits).mpr ⟨fits, fun i _ => cursors i⟩

theorem Wrote.screen (wrote : Wrote c c') (vga : Screen) : Wrote c { c' with vga := vga } :=
  ⟨wrote.active, wrote.others, wrote.cursors⟩

theorem mirrors_writeBuffer (c : Console) : c.writeBuffer.Mirrors := rfl

theorem putchars_spec (string : List Byte) : ∀ {c : Console},
    (∀ i, CursorFits (c.ttyTerminals i)) → ∃ c', putchars string c = .ok c' ∧ Wrote c c' := by
  induction string with
  | nil => exact fun cursors => ⟨_, rfl, .refl cursors⟩
  | cons ch rest ih =>
    intro c cursors
    obtain ⟨t, put, fits⟩ := putchar_spec ch (cursors c.activeTty)
    have first : Wrote c (c.set t) := .set cursors fits
    obtain ⟨c', puts, wrote⟩ := ih first.cursors
    refine ⟨c', ?_, first.trans wrote⟩
    rw [putchars, active, put, ok_bind, puts]

theorem print_spec (string : List Byte) (cursors : ∀ i, CursorFits (c.ttyTerminals i)) :
    ∃ c', c.print string = .ok c' ∧ Wrote c c' ∧ c'.Mirrors := by
  obtain ⟨c', puts, wrote⟩ := putchars_spec (cstr string) cursors
  refine ⟨c'.writeBuffer, ?_, wrote.screen _, mirrors_writeBuffer c'⟩
  rw [print, puts, ok_bind]

theorem exec_spec (call : TtyCall) (cursors : ∀ i, CursorFits (c.ttyTerminals i)) :
    ∃ c', c.exec call = .ok c' ∧ Wrote c c' ∧ c'.Mirrors := by
  cases call with
  | print string => exact print_spec string cursors
  | putchar ch =>
    obtain ⟨t, put, fits⟩ := putchar_spec ch (cursors c.activeTty)
    refine ⟨(c.set t).writeBuffer, ?_, (Wrote.set cursors fits).screen _, mirrors_writeBuffer _⟩
    rw [exec, active, put, ok_bind]

theorem execAll_spec (calls : List TtyCall) : ∀ {c : Console},
    (∀ i, CursorFits (c.ttyTerminals i)) →
      ∃ c', execAll calls c = .ok c' ∧ Wrote c c' ∧ (c.Mirrors → c'.Mirrors) := by
  induction calls with
  | nil => exact fun cursors => ⟨_, rfl, .refl cursors, id⟩
  | cons call rest ih =>
    intro c cursors
    obtain ⟨c₁, done, first, mirrors⟩ := exec_spec call cursors
    obtain ⟨c', all, wrote, kept⟩ := ih first.cursors
    refine ⟨c', ?_, first.trans wrote, fun _ => kept mirrors⟩
    rw [execAll, done, ok_bind, all]

/-- **A `printf`** writes to the active terminal, or is stopped by a fault of its own. -/
theorem printf_spec (text : Word → List Byte) (format : List Byte) (varargs : Nat → Word)
    (cursors : ∀ i, CursorFits (c.ttyTerminals i)) :
    match (ShipOS.printf text format varargs).2 with
    | none => ∃ c', c.printf text format varargs = .ok c' ∧ Wrote c c' ∧ (c.Mirrors → c'.Mirrors)
    | some fault => c.printf text format varargs = .error (.format fault) := by
  obtain ⟨c', all, wrote, kept⟩ := execAll_spec (ShipOS.printf text format varargs).1 cursors
  unfold printf
  dsimp only
  rw [all, ok_bind]
  cases (ShipOS.printf text format varargs).2 with
  | none => exact ⟨c', rfl, wrote, kept⟩
  | some fault => rfl

/-- The number of a terminal is logged without a fault. -/
theorem log_safe (id : Byte) :
    (ShipOS.printf (fun _ => []) (ascii "TTY %d\n") fun _ => id.setWidth 64).2 = none := by
  revert id
  decide +kernel

@[simp] theorem active_set (c : Console) (t : TtyStructure) : (c.set t).active = t :=
  Function.update_self ..

/-- What holds between two calls. -/
structure Shown (c : Console) : Prop where
  mirrors : c.Mirrors
  cursors : ∀ i, CursorFits (c.ttyTerminals i)

/-- One call from `c`: at most the terminal that is active afterwards has changed. -/
structure Called (c c' : Console) : Prop where
  shown : c'.Shown
  others : ∀ i, i ≠ c'.activeTty → c'.ttyTerminals i = c.ttyTerminals i

theorem Wrote.called (wrote : Wrote c c') (mirrors : c'.Mirrors) : Called c c' :=
  ⟨⟨mirrors, wrote.cursors⟩, fun i other => wrote.others i (wrote.active ▸ other)⟩

/-- **`set_tty`** logs to the terminal it switches to, and shows it. -/
theorem setTty_valid {terminal : BitVec 8} (valid : terminal.toNat < 7)
    (cursors : ∀ i, CursorFits (c.ttyTerminals i)) :
    ∃ c', c.setTty terminal = .ok c' ∧ Called c c' := by
  let switched := c.activate ⟨terminal.toNat, valid⟩
  have logged := printf_spec (fun _ => []) (ascii "TTY %d\n")
    (fun _ => switched.active.ttyId.setWidth 64) (show ∀ i, CursorFits (switched.ttyTerminals i)
      from cursors)
  rw [log_safe] at logged
  obtain ⟨c', done, wrote, -⟩ := logged
  have called := (wrote.screen c'.active.ttyBuffer).called (mirrors_writeBuffer c')
  refine ⟨c'.writeBuffer, ?_, called.shown, called.others⟩
  rw [setTty, dif_pos valid]
  dsimp only
  rw [done, ok_bind]

theorem setTty_spec (terminal : BitVec 8) (shown : c.Shown) :
    ∃ c', c.setTty terminal = .ok c' ∧ Called c c' := by
  by_cases valid : terminal.toNat < 7
  · exact setTty_valid valid shown.cursors
  · exact ⟨c, dif_neg valid, shown, fun _ _ => rfl⟩

theorem clearCurrentTty_spec (shown : c.Shown) : Called c c.clearCurrentTty := by
  let t := { c.active with
    ttyBuffer := clearBytes (80 * 25) c.active.ttyBuffer, pos := 0, line := 0 }
  have fits : CursorFits t := ⟨show 0 < 80 by decide, show 0 ≤ 25 by decide, fun _ => rfl⟩
  refine ((Wrote.set shown.cursors fits).screen _).called ?_
  -- Screen and buffer are cleared alike, so that they still agree in the half that is not cleared.
  have same : clearBytes (25 * 80) c.vga = t.ttyBuffer := congrArg (clearBytes _) shown.mirrors
  exact same.trans (congrArg TtyStructure.ttyBuffer (active_set c t)).symm

/-- A change of the active terminal's colours. -/
theorem set_spec (shown : c.Shown) {t : TtyStructure} (buffer : t.ttyBuffer = c.active.ttyBuffer)
    (fits : CursorFits t) : Called c (c.set t) := by
  refine (Wrote.set shown.cursors fits).called ?_
  unfold Mirrors
  rw [active_set, buffer]
  exact shown.mirrors

end Console

open Console

/-- **One call** returns with the screen showing the active terminal, or is a `printf` with a fault
of its own. -/
theorem TtyOp.exec_spec {c : Console} (op : TtyOp) (shown : c.Shown) :
    (∃ c', op.exec c = .ok c' ∧ Called c c') ∨
      ∃ text format varargs fault, op = .printf text format varargs ∧
        (ShipOS.printf text format varargs).2 = some fault ∧
        op.exec c = .error (.format fault) := by
  cases op with
  | print string =>
    obtain ⟨c', done, wrote, mirrors⟩ := print_spec string shown.cursors
    exact .inl ⟨c', done, wrote.called mirrors⟩
  | printf text format varargs =>
    have result := printf_spec text format varargs shown.cursors
    cases fault : (ShipOS.printf text format varargs).2 with
    | none =>
      rw [fault] at result
      obtain ⟨c', done, wrote, kept⟩ := result
      exact .inl ⟨c', done, wrote.called (kept shown.mirrors)⟩
    | some fault' =>
      rw [fault] at result
      exact .inr ⟨text, format, varargs, fault', rfl, fault, result⟩
  | setFg fg => exact .inl ⟨_, rfl, set_spec shown rfl (shown.cursors c.activeTty)⟩
  | setBg bg => exact .inl ⟨_, rfl, set_spec shown rfl (shown.cursors c.activeTty)⟩
  | setTty terminal => exact .inl (setTty_spec terminal shown)
  | clearCurrentTty => exact .inl ⟨_, rfl, clearCurrentTty_spec shown⟩

theorem TtyOp.exec_called {c c' : Console} {op : TtyOp} (shown : c.Shown)
    (step : op.exec c = .ok c') : Called c c' := by
  obtain ⟨c'', step', called⟩ | ⟨_, _, _, _, -, -, stop⟩ := op.exec_spec shown
  · rw [Except.ok.inj (step.symm.trans step')]
    exact called
  · cases step.symm.trans stop

theorem initTty_spec (vga : Screen) : ∃ start, initTty vga = .ok start ∧ start.Shown := by
  have blank : ∀ i, CursorFits (initTerminal i) := fun _ =>
    ⟨show 0 < 80 by decide, show 0 ≤ 25 by decide, fun _ => rfl⟩
  have zero : (0 : BitVec 8).toNat < 7 := by decide
  obtain ⟨c, switched, called⟩ := setTty_valid (c := ⟨vga, initTerminal, 0⟩) zero blank
  have logged := printf_spec (fun _ => []) (ascii "TTY subsystem initialized\n") (fun _ => 0)
    called.shown.cursors
  have safe : (ShipOS.printf (fun _ => []) (ascii "TTY subsystem initialized\n") fun _ => 0).2 =
    none := by decide +kernel
  rw [safe] at logged
  obtain ⟨start, done, wrote, kept⟩ := logged
  refine ⟨start, ?_, kept called.shown.mirrors, wrote.cursors⟩
  rw [initTty, switched, ok_bind, done]

/-- **The terminals are isolated and the screen mirrors the active one.** After `init_tty`, in every
state that calls lead to, the whole text memory is the buffer of the active terminal and every
cursor is in its buffer or at the start of the line after it. The next call changes at most the
terminal that is active after it, and no cell store of it is outside its buffer: the only calls
without a result are those of `printf` whose format interpreter has a fault. -/
theorem console_of_run (vga : Screen) :
    ∃ start, initTty vga = .ok start ∧
      ∀ ops c, Run (fun c op c' => TtyOp.exec c op = .ok c') start ops c →
        c.vga = c.active.ttyBuffer ∧ (∀ i, CursorFits (c.ttyTerminals i)) ∧
        ∀ op, (∀ c', TtyOp.exec c op = .ok c' →
            ∀ i, i ≠ c'.activeTty → c'.ttyTerminals i = c.ttyTerminals i) ∧
          ∀ stop, TtyOp.exec c op = .error stop → ∃ text format varargs fault,
            op = .printf text format varargs ∧
              (ShipOS.printf text format varargs).2 = some fault ∧ stop = .format fault := by
  obtain ⟨start, done, begun⟩ := initTty_spec vga
  refine ⟨start, done, fun ops c run => ?_⟩
  have shown : c.Shown :=
    run.keeps Console.Shown (fun _ _ _ shown step => (TtyOp.exec_called shown step).shown) begun
  refine ⟨shown.mirrors, shown.cursors, fun op => ⟨fun c' step => ?_, fun stop step => ?_⟩⟩
  · exact (TtyOp.exec_called shown step).others
  · obtain ⟨c'', step', -⟩ | ⟨text, format, varargs, fault, isPrintf, has, stop'⟩ :=
      op.exec_spec shown
    · cases step.symm.trans step'
    · exact ⟨text, format, varargs, fault, isPrintf, has, Except.error.inj (step.symm.trans stop')⟩

/-- A switch to the fourth terminal. -/
theorem console_of_run_switch :
    ∃ start c, initTty (fun _ => ⟨0, 0⟩) = .ok start ∧ TtyOp.exec start (.setTty 3) = .ok c ∧
      c.vga = c.active.ttyBuffer := by
  obtain ⟨start, done, reached⟩ := console_of_run fun _ => ⟨0, 0⟩
  obtain ⟨-, cursors, -⟩ := reached [] start (.nil start)
  have valid : (3 : BitVec 8).toNat < 7 := by decide
  obtain ⟨c, step, -⟩ := setTty_valid valid cursors
  exact ⟨start, c, done, step, (reached [.setTty 3] c (.cons step (.nil c))).1⟩

end ShipOS
