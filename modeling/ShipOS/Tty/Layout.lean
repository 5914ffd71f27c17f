/-
**What a terminal shows.**

The text printed to a terminal, with the colours in force, is laid out in rows of 80 cells
(`Rows.layout`); the buffer of the terminal holds the last 25 of them.

* `putchar_shows` — a character keeps this: the scroll that a full screen needs first is that of the
  next character;
* `terminal_shows_tail` — so does every sequence of output calls and changes of colour;
* `clear_erases_iff` — `clear_current_tty` clears half of the bytes of the buffer and of the screen,
  so that it erases a terminal exactly when the cells of the other half were blank.
-/

import ShipOS.Lib.Text
import ShipOS.Tty.Terminals

namespace ShipOS

open ByteMem Rows

/-! ### One character -/

def blankCell : CharWithColor := ⟨0, 0⟩

/-- A character as it is laid out. -/
def glyph (fg bg : VgaColor) (c : Byte) : Option CharWithColor :=
  if c = chr '\n' then none else some (makeChar c fg bg)

/-- **The terminal shows the tail of a page**: its last 25 rows, with the cursor where the page
continues. -/
structure ShowsTail (t : TtyStructure) (p : Page CharWithColor) : Prop where
  buffer : ∀ i, t.ttyBuffer i = cell 80 blankCell (p.rows.rtake 25) i
  line : t.line = p.line 25
  pos : t.pos = p.current.length
  short : p.current.length < 80

/-- The terminal with room for a character: the last rows that have ended, at most 24 of them, stand
above the current one. -/
structure Ready (t : TtyStructure) (p : Page CharWithColor) : Prop where
  buffer : ∀ i, t.ttyBuffer i = cell 80 blankCell (p.done.rtake 24 ++ [p.current]) i
  line : t.line = (p.done.rtake 24).length
  pos : t.pos = p.current.length
  short : p.current.length < 80

section

variable {t : TtyStructure} {p : Page CharWithColor}

theorem scroll_ready (shows : ShowsTail t p) (full : t.line ≥ 25) : Ready (scroll t) p := by
  obtain ⟨buffer, line, pos, short⟩ := shows
  obtain ⟨nothing, shown, least⟩ | ⟨-, least⟩ := shown_cases 24 p
  · have atLine := line.trans least
    have many : 24 < p.done.length := by omega
    obtain ⟨row, first⟩ := rtake_cons many
    have height : (p.done.rtake 24).length = 24 := by
      rw [length_rtake]
      omega
    rw [shown, first] at buffer
    refine ⟨fun i => ?_, height.symm, ?_, short⟩
    · rw [nothing, cell_append_nil]
      unfold scroll
      dsimp only
      split
      · rw [buffer]
        exact cell_tail (by decide) row _ i
      · exact (cell_below (by omega)).symm
    · rw [nothing]
      rfl
  · have atLine := line.trans least
    omega

/-- **The scroll that is due**, and no other. -/
theorem ready_of_shows (shows : ShowsTail t p) :
    Ready (if t.line ≥ 25 then scroll t else t) p := by
  split <;> rename_i full
  · exact scroll_ready shows full
  · obtain ⟨buffer, line, pos, short⟩ := shows
    obtain ⟨nothing, shown, least⟩ | ⟨shown, least⟩ := shown_cases 24 p
    · have atLine := line.trans least
      have few : p.done.length ≤ 24 := by omega
      refine ⟨fun i => ?_, ?_, pos, short⟩
      · rw [buffer, shown, nothing, cell_append_nil, rtake_all few, rtake_all (few.trans (by decide))]
      · rw [atLine, length_rtake]
        omega
    · refine ⟨fun i => ?_, ?_, pos, short⟩
      · rw [buffer, shown]
      · rw [line, length_rtake]
        exact least

/-- **One character**: it is stored at the end of the page, with the colours in force. -/
theorem putchar_shows (shows : ShowsTail t p) (c : Byte) :
    ∃ t', putchar c t = .ok t' ∧ ShowsTail t' (p.add 80 (glyph t.fg t.bg c)) ∧ t'.fg = t.fg ∧
      t'.bg = t.bg := by
  have ready := ready_of_shows shows
  have colours : (if t.line ≥ 25 then scroll t else t).fg = t.fg ∧
      (if t.line ≥ 25 then scroll t else t).bg = t.bg := by
    split <;> exact ⟨rfl, rfl⟩
  unfold putchar
  generalize (if t.line ≥ 25 then scroll t else t) = t₁ at ready colours ⊢
  obtain ⟨buffer, line, pos, short⟩ := ready
  obtain ⟨fg, bg⟩ := colours
  have above : (p.done.rtake 24).length ≤ 24 := by
    rw [length_rtake]
    omega
  dsimp only
  unfold glyph
  by_cases newline : c = chr '\n'
  · rw [if_pos newline, if_pos newline]
    refine ⟨_, rfl, ⟨fun i => ?_, ?_, rfl, current_add short none⟩, fg, bg⟩
    · rw [shown_add, Option.toList_none, List.append_nil]
      exact buffer i
    · refine Eq.trans ?_ (line_add 24 p none).symm
      show (t₁.line + 1) % 256 = _ + 1
      omega
  · rw [if_neg newline, if_neg newline, dif_pos (by omega)]
    refine ⟨_, rfl, ⟨fun i => ?_, ?_, ?_, current_add short _⟩, fg, bg⟩
    · rw [shown_add, Option.toList_some, cell_put _ short, ← line, ← pos, ← fg, ← bg, ← buffer]
      dsimp only
      rw [Function.update_apply]
      exact if_congr Fin.ext_iff rfl rfl
    · refine Eq.trans ?_ (line_add 24 p _).symm
      dsimp only
      unfold Page.add
      dsimp only
      split
      · show _ = _ + 1
        omega
      · rw [if_neg (by simp)]
        omega
    · dsimp only
      unfold Page.add
      dsimp only
      split
      · show _ = 0
        omega
      · rw [List.length_append, List.length_singleton]
        omega

end

/-! ### Sequences of output -/

/-- An output call, or a change of colour. -/
inductive Printing
  | output (call : TtyCall)
  | setFg (fg : VgaColor)
  | setBg (bg : VgaColor)

namespace Printing

def exec (c : Console) : Printing → Except TtyFault Console
  | .output call => c.exec call
  | .setFg fg => .ok (c.setFg fg)
  | .setBg bg => .ok (c.setBg bg)

def execAll : List Printing → Console → Except TtyFault Console
  | [], c => .ok c
  | op :: rest, c => op.exec c >>= execAll rest

/-- The text that a sequence prints, with the colours in force. -/
def glyphs (fg bg : VgaColor) : List Printing → List (Option CharWithColor)
  | [] => []
  | .output call :: rest => call.chars.map (glyph fg bg) ++ glyphs fg bg rest
  | .setFg fg :: rest => glyphs fg bg rest
  | .setBg bg :: rest => glyphs fg bg rest

end Printing

section

variable {c : Console} {p : Page CharWithColor}

theorem putchars_shows (chars : List Byte) : ∀ {c : Console} {p : Page CharWithColor},
    ShowsTail c.active p →
      ∃ c', Console.putchars chars c = .ok c' ∧
        ShowsTail c'.active ((chars.map (glyph c.active.fg c.active.bg)).foldl (Page.add 80) p) ∧
        c'.active.fg = c.active.fg ∧ c'.active.bg = c.active.bg := by
  induction chars with
  | nil => exact fun shows => ⟨_, rfl, shows, rfl, rfl⟩
  | cons ch rest ih =>
    intro c p shows
    obtain ⟨t, put, shows', fg, bg⟩ := putchar_shows shows ch
    have shown : ShowsTail (c.set t).active (p.add 80 (glyph c.active.fg c.active.bg ch)) := by
      rw [Console.active_set]
      exact shows'
    obtain ⟨c', puts, tail, fg', bg'⟩ := ih shown
    rw [Console.active_set] at tail fg' bg'
    rw [fg, bg] at tail
    refine ⟨c', ?_, tail, fg'.trans fg, bg'.trans bg⟩
    rw [Console.putchars, put, ok_bind, puts]

/-- **One output call.** -/
theorem exec_shows (shows : ShowsTail c.active p) (call : TtyCall) :
    ∃ c', c.exec call = .ok c' ∧
      ShowsTail c'.active ((call.chars.map (glyph c.active.fg c.active.bg)).foldl (Page.add 80) p) ∧
      c'.active.fg = c.active.fg ∧ c'.active.bg = c.active.bg := by
  cases call with
  | putchar ch =>
    obtain ⟨t, put, shows', fg, bg⟩ := putchar_shows shows ch
    refine ⟨(c.set t).writeBuffer, ?_, ?_⟩
    · rw [Console.exec, put, ok_bind]
    · have same : (c.set t).writeBuffer.active = t := Console.active_set c t
      rw [same]
      exact ⟨shows', fg, bg⟩
  | print string =>
    obtain ⟨c', puts, shown⟩ := putchars_shows (cstr string) shows
    exact ⟨c'.writeBuffer, by rw [Console.exec, Console.print, puts, ok_bind], shown⟩

/-- **A run of output** continues the page. -/
theorem execAll_shows (ops : List Printing) : ∀ {c : Console} {p : Page CharWithColor},
    ShowsTail c.active p →
      ∃ c', Printing.execAll ops c = .ok c' ∧
        ShowsTail c'.active
          ((Printing.glyphs c.active.fg c.active.bg ops).foldl (Page.add 80) p) := by
  induction ops with
  | nil => exact fun shows => ⟨_, rfl, shows⟩
  | cons op rest ih =>
    intro c p shows
    cases op with
    | output call =>
      obtain ⟨c₁, done, shows₁, fg, bg⟩ := exec_shows shows call
      obtain ⟨c', all, tail⟩ := ih shows₁
      refine ⟨c', ?_, ?_⟩
      · rw [Printing.execAll, Printing.exec, done, ok_bind, all]
      · rw [fg, bg] at tail
        rw [Printing.glyphs, List.foldl_append]
        exact tail
    | setFg fg =>
      have recoloured : ShowsTail (c.setFg fg).active p := by
        rw [Console.setFg, Console.active_set]
        exact ⟨shows.buffer, shows.line, shows.pos, shows.short⟩
      obtain ⟨c', all, tail⟩ := ih recoloured
      rw [Console.setFg, Console.active_set] at tail
      exact ⟨c', all, tail⟩
    | setBg bg =>
      have recoloured : ShowsTail (c.setBg bg).active p := by
        rw [Console.setBg, Console.active_set]
        exact ⟨shows.buffer, shows.line, shows.pos, shows.short⟩
      obtain ⟨c', all, tail⟩ := ih recoloured
      rw [Console.setBg, Console.active_set] at tail
      exact ⟨c', all, tail⟩

end

/-- A terminal whose buffer and cursor are cleared. -/
def Cleared (t : TtyStructure) : Prop := (∀ i, t.ttyBuffer i = blankCell) ∧ t.line = 0 ∧ t.pos = 0

/-- **The terminal shows the tail of what was printed**: after any sequence of output calls and
changes of colour on a cleared terminal its buffer holds the last 25 rows of the text, and blank
cells besides; the cursor is where the layout continues. -/
theorem terminal_shows_tail (c : Console) (cleared : Cleared c.active) (ops : List Printing) :
    ∃ c' page, Printing.execAll ops c = .ok c' ∧
      page = layout 80 (Printing.glyphs c.active.fg c.active.bg ops) ∧
      (∀ i : Fin (25 * 80), c'.active.ttyBuffer i = cell 80 blankCell (page.rows.rtake 25) i) ∧
      c'.active.line = page.line 25 ∧ c'.active.pos = page.current.length := by
  have shows : ShowsTail c.active ⟨[], []⟩ :=
    ⟨fun i => (cleared.1 i).trans (cell_nil i.val).symm, cleared.2.1, cleared.2.2, by decide⟩
  obtain ⟨c', all, tail⟩ := execAll_shows ops shows
  exact ⟨c', _, all, rfl, tail.buffer, tail.line, tail.pos⟩

/-- A line, and a character in another colour on the next one. -/
theorem terminal_shows_tail_start :
    ∃ c' page, Printing.execAll [.output (.print (ascii "hi\n")), .setFg .red, .output (.putchar 33)]
        startConsole = .ok c' ∧
      page = layout 80 (Printing.glyphs .black .white
        [.output (.print (ascii "hi\n")), .setFg .red, .output (.putchar 33)]) ∧
      (∀ i : Fin (25 * 80), c'.active.ttyBuffer i = cell 80 blankCell (page.rows.rtake 25) i) ∧
      c'.active.line = page.line 25 ∧ c'.active.pos = page.current.length :=
  terminal_shows_tail startConsole ⟨fun _ => rfl, rfl, rfl⟩ _

/-! ### Clearing -/

/-- `VGA_WIDTH * VGA_HEIGHT` bytes are half of the cells. -/
theorem clearBytes_half (cells : Screen) (i : Fin (25 * 80)) :
    clearBytes (25 * 80) cells i = if i.val < 1000 then blankCell else cells i := by
  unfold clearBytes
  by_cases first : i.val < 1000
  · rw [if_pos first, if_pos (by omega), if_pos (by omega)]
    rfl
  · rw [if_neg first, if_neg (by omega), if_neg (by omega)]

/-- The active terminal as if it had never been used, in its colours. -/
def neverUsed (c : Console) : Console :=
  c.set { c.active with ttyBuffer := fun _ => blankCell, line := 0, pos := 0 }

/-- **`clear_current_tty` erases the history**: every cell of the buffer and of the screen is blank,
the cursor is at the origin, and what is printed afterwards gives the buffer it gives on a terminal
that was never used. -/
structure Erases (c : Console) : Prop where
  buffer : ∀ i, c.clearCurrentTty.active.ttyBuffer i = blankCell
  screen : ∀ i, c.clearCurrentTty.vga i = blankCell
  cursor : c.clearCurrentTty.active.line = 0 ∧ c.clearCurrentTty.active.pos = 0
  later : ∀ ops, (Printing.execAll ops c.clearCurrentTty).map (fun c' => c'.active.ttyBuffer) =
    (Printing.execAll ops (neverUsed c.clearCurrentTty)).map fun c' => c'.active.ttyBuffer

theorem active_clear (c : Console) :
    c.clearCurrentTty.active =
      { c.active with ttyBuffer := clearBytes (80 * 25) c.active.ttyBuffer, pos := 0, line := 0 } := by
  have screen : ∀ c : Console, c.clearVga.active = c.active := fun _ => rfl
  rw [Console.clearCurrentTty, screen, Console.active_set]

theorem Cleared.eq {t : TtyStructure} (cleared : Cleared t) :
    { t with ttyBuffer := fun _ => blankCell, line := 0, pos := 0 } = t := by
  obtain ⟨ttyBuffer, ttyId, line, pos, bg, fg⟩ := t
  obtain ⟨buffer, atLine, atPos⟩ := cleared
  cases atLine
  cases atPos
  cases (funext buffer : ttyBuffer = fun _ => blankCell)
  rfl

/-- A console whose active terminal is cleared is as if that had never been used. -/
theorem neverUsed_eq {c : Console} (cleared : Cleared c.active) : neverUsed c = c := by
  unfold neverUsed Console.set
  rw [cleared.eq]
  unfold Console.active
  rw [Function.update_eq_self]

/-- **Clearing erases a terminal exactly when the second half of its cells**, and of the screen's,
**was blank before.** -/
theorem clear_erases_iff (c : Console) :
    Erases c ↔ ∀ i : Fin (25 * 80), 1000 ≤ i.val →
      c.active.ttyBuffer i = blankCell ∧ c.vga i = blankCell := by
  have buffer : ∀ i, c.clearCurrentTty.active.ttyBuffer i =
      if i.val < 1000 then blankCell else c.active.ttyBuffer i := by
    intro i
    rw [active_clear]
    exact clearBytes_half c.active.ttyBuffer i
  have screen : ∀ i, c.clearCurrentTty.vga i = if i.val < 1000 then blankCell else c.vga i :=
    clearBytes_half c.vga
  constructor
  · intro erases i second
    have blank := erases.buffer i
    have dark := erases.screen i
    rw [buffer, if_neg (Nat.not_lt.mpr second)] at blank
    rw [screen, if_neg (Nat.not_lt.mpr second)] at dark
    exact ⟨blank, dark⟩
  · intro blank
    have cells : ∀ i, c.clearCurrentTty.active.ttyBuffer i = blankCell := by
      intro i
      rw [buffer]
      split <;> rename_i half
      · rfl
      · exact (blank i (Nat.le_of_not_lt half)).1
    have cursor : c.clearCurrentTty.active.line = 0 ∧ c.clearCurrentTty.active.pos = 0 := by
      rw [active_clear]
      exact ⟨rfl, rfl⟩
    refine ⟨cells, fun i => ?_, cursor, fun ops => ?_⟩
    · rw [screen]
      split <;> rename_i half
      · rfl
      · exact (blank i (Nat.le_of_not_lt half)).2
    · rw [neverUsed_eq ⟨cells, cursor⟩]

/-- **Text in the lower half stays**: an `x` printed on the fourteenth line is in the buffer and on
the screen after the terminal has been cleared. -/
theorem clear_leaves_text :
    (Printing.execAll [.output (.print (List.replicate 13 (chr '\n') ++ [chr 'x']))]
      startConsole).map
        (fun c => (c.clearCurrentTty.active.ttyBuffer 1040, c.clearCurrentTty.vga 1040)) =
        .ok (makeChar (chr 'x') .black .white, makeChar (chr 'x') .black .white) := by
  decide +kernel

end ShipOS
