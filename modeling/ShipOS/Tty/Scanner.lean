/-
**What the format interpreters read of their format.**

The parsing of `printf` and `serial_printf` once more, as it moves `format` over memory: every
`*format` is a read of the index the cursor stands at, every `format++` moves it by one. The loops
have fuel, so that they may fail to end.

* `scanDirective_tracks` — a turn of the loop gives what `nextDirective` gives, reads nothing behind
  the NUL and does not move the cursor past it;
* `scanLoop_tracks` — so does the loop, whose turns consume the format piece by piece;
* `format_consumed` — the loop ends at the NUL, its turns partition the format, and what stands
  outside conversion specifications is output as it is.
-/

import ShipOS.Lib.Text
import ShipOS.Tty.Printf

namespace ShipOS

open ByteMem Scanner

/-! ### The parsing in memory -/

/-- A program over the format; the arguments not yet read are kept besides. -/
abbrev FormatM := Program (Nat → Word) Fault

/-- `va_arg`. -/
def vaArg : FormatM Word := keep fun varargs => (varargs 0, fun i => varargs (i + 1))

section

variable (str : Nat → Byte) (int : Int → Except Fault Int)

/-- `while (parsing_flags && *format) switch (*format)`. -/
def scanFlags : Nat → FmtFlags → FormatM FmtFlags
  | 0, _ => fun _ => none
  | fuel + 1, flags => do
    let c ← peek str
    if c = 0 then pure flags
    else
      match flags.add c with
      | some flags =>
        advance
        scanFlags fuel flags
      | none => pure flags

/-- `while (*format >= '0' && *format <= '9')`. -/
def scanNumber : Nat → Int → FormatM Int
  | 0, _ => fun _ => none
  | fuel + 1, n => do
    let c ← peek str
    if 48 ≤ c.toNat ∧ c.toNat ≤ 57 then
      let tens ← lift (int (n * 10))
      let n ← lift (int (tens + (c.toNat - 48)))
      advance
      scanNumber fuel n
    else pure n

def scanWidth (fuel : Nat) (spec : FmtSpec) : FormatM FmtSpec := do
  let c ← peek str
  if c = chr '*' then
    let arg ← vaArg
    let width := vaInt arg
    if width < 0 then
      let width ← lift (int (-width))
      advance
      pure { spec with flags := { spec.flags with left := true }, width := width }
    else
      advance
      pure { spec with width := width }
  else
    let width ← scanNumber str int fuel 0
    pure { spec with width := if width = 0 then -1 else width }

def scanPrecision (fuel : Nat) (spec : FmtSpec) : FormatM FmtSpec := do
  let c ← peek str
  if c = chr '.' then
    advance
    let c ← peek str
    if c = chr '*' then
      let arg ← vaArg
      let precision := vaInt arg
      advance
      pure { spec with precision := if precision < 0 then -1 else precision }
    else
      let precision ← scanNumber str int fuel 0
      pure { spec with precision := precision }
  else pure spec

/-- `h` or `l`, and the same letter once more or not. -/
def scanTwice (letter : Byte) (once twice : FmtLen) (spec : FmtSpec) : FormatM FmtSpec := do
  advance
  let c ← peek str
  if c = letter then
    advance
    pure { spec with length := twice }
  else pure { spec with length := once }

def scanLength (spec : FmtSpec) : FormatM FmtSpec := do
  let c ← peek str
  if c = chr 'h' then scanTwice str (chr 'h') .h .hh spec
  else if c = chr 'l' then scanTwice str (chr 'l') .l .ll spec
  else if c = chr 'z' then
    advance
    pure { spec with length := .z }
  else pure spec

/-- The cases of the switch that read an argument. -/
def Specifier.readsArg : Specifier → Bool
  | .nothing | .unknown => false
  | _ => true

/-- The switch on the conversion specifier, with the argument it reads. -/
def scanConversion (spec : FmtSpec) : FormatM (FmtSpec × Conv) := do
  let c ← peek str
  let arg ← if (specifier c).readsArg then vaArg else pure 0
  pure (convert spec ⟨[c], fun _ => arg⟩).1

/-- One turn of the loop, at `*format ≠ 0`. -/
def scanDirective (fuel : Nat) : FormatM Directive := do
  let c ← peek str
  if c ≠ chr '%' then
    advance
    pure (.literal c)
  else
    advance
    let c ← peek str
    if c = chr '%' then
      advance
      pure (.literal (chr '%'))
    else
      let flags ← scanFlags str fuel {}
      let spec ← scanWidth str int fuel { flags := flags }
      let spec ← scanPrecision str int fuel spec
      let spec ← scanLength str spec
      let conv ← scanConversion str spec
      let c ← peek str
      let _ ← if c ≠ 0 then advance else pure ()
      pure (.conv conv.1 conv.2)

/-- A turn of the loop: the indices from `start` to `stop` are consumed. -/
structure Turn where
  start : Nat
  stop : Nat
  directive : Directive
  buf : List Byte

/-- `while (*format)`; `fuel` bounds the turns and the rounds of the loops within them. -/
def scanLoop (render : Directive → Except Fault (List Byte)) (rounds : Nat) :
    Nat → State (Nat → Word) → Option ((List Turn × Option Fault) × State (Nat → Word))
  | 0, _ => none
  | fuel + 1, s =>
    if str s.pos = 0 then some (([], none), s.read)
    else
      match scanDirective str int rounds s.read with
      | none => none
      | some (.error fault, s') => some (([], some fault), s')
      | some (.ok d, s') =>
        match render d with
        | .error fault => some (([], some fault), s')
        | .ok buf =>
          match scanLoop render rounds fuel s' with
          | none => none
          | some ((turns, fault), s'') => some ((⟨s.pos, s'.pos, d, buf⟩ :: turns, fault), s'')

end

/-! ### The parsing in memory follows the parsing of the list -/

/-- The rest of the format and the arguments that a state stands for. -/
def view (format : List Byte) (s : State (Nat → Word)) : FmtCursor := ⟨format.drop s.pos, s.rest⟩

/-- `str` holds the format and its NUL, and anything behind. -/
structure CString (str : Nat → Byte) (format : List Byte) : Prop where
  chars : ∀ i ≤ format.length, str i = format.getD i 0
  nonzero : ∀ c ∈ format, c ≠ 0

/-- A run from `s` gives what the parsing of the list gives, within the format. -/
abbrev Tracks (format : List Byte) {β : Type} (s : State (Nat → Word))
    (run : Option (Except Fault β × State (Nat → Word))) (spec : Except Fault (β × FmtCursor)) : Prop :=
  Follows format.length (view format) s run spec

section

variable {str : Nat → Byte} {format : List Byte} {β : Type} {s : State (Nat → Word)}
  {spec : Except Fault (β × FmtCursor)}

theorem view_next (s : State (Nat → Word)) : view format s.next = (view format s).next := by
  unfold view FmtCursor.next
  rw [List.tail_drop]
  rfl

theorem view_peek (holds : CString str format) (inside : s.Inside format.length) :
    str s.pos = (view format s).peek := by
  rw [holds.chars s.pos inside.1]
  unfold view FmtCursor.peek
  simp [List.headD_eq_head?_getD, List.head?_drop]

/-- The cursor is before the NUL where it stands at another character. -/
theorem view_before (more : (view format s).peek ≠ 0) : s.pos < format.length := by
  by_contra past
  refine more ?_
  unfold view FmtCursor.peek
  rw [List.drop_eq_nil_of_le (Nat.le_of_not_lt past)]
  rfl

theorem tracks_peek (holds : CString str format) (inside : s.Inside format.length)
    {q : Byte → FormatM β}
    (next : ∀ t, t.Inside format.length → view format t = view format s →
      Tracks format t (q (view format s).peek t) spec) :
    Tracks format s ((peek str >>= q) s) spec := by
  refine follows_peek ?_
  rw [view_peek holds inside]
  exact next s.read inside.read rfl

theorem tracks_advance (inside : s.Inside format.length) (more : (view format s).peek ≠ 0)
    {q : Unit → FormatM β}
    (next : ∀ t, t.Inside format.length → view format t = (view format s).next →
      Tracks format t (q () t) spec) :
    Tracks format s ((advance >>= q) s) spec :=
  follows_advance (next s.next (inside.next (view_before more)) (view_next s))

theorem tracks_vaArg (inside : s.Inside format.length) {q : Word → FormatM β}
    (next : ∀ t, t.Inside format.length → view format t = (view format s).nextArg →
      Tracks format t (q (view format s).arg t) spec) :
    Tracks format s ((vaArg >>= q) s) spec :=
  follows_keep (next _ inside rfl)

theorem tracks_return (inside : s.Inside format.length) (b : β) {cur : FmtCursor}
    (same : view format s = cur) : Tracks format s ((pure b : FormatM β) s) (.ok (b, cur)) :=
  same ▸ follows_pure inside b

theorem tracks_advance_return (inside : s.Inside format.length) (more : (view format s).peek ≠ 0)
    (b : β) {cur : FmtCursor} (same : (view format s).next = cur) :
    Tracks format s ((advance >>= fun _ => pure b : FormatM β) s) (.ok (b, cur)) :=
  tracks_advance inside more fun _ inside' next => tracks_return inside' b (next.trans same)

end

section

variable {str : Nat → Byte} {format : List Byte} (holds : CString str format)
  {int : Int → Except Fault Int} {s : State (Nat → Word)}

include holds in
/-- The rest of the format is empty at its NUL. -/
theorem view_cases (s : State (Nat → Word)) :
    (view format s).peek = 0 ∧ (view format s).format = [] ∨
      (view format s).peek ≠ 0 ∧
        (view format s).format = (view format s).peek :: (view format s).next.format := by
  unfold FmtCursor.peek FmtCursor.next
  cases rest : (view format s).format with
  | nil => exact .inl ⟨rfl, rfl⟩
  | cons c rest' =>
    have member : c ∈ format := List.mem_of_mem_drop (rest ▸ List.mem_cons_self)
    exact .inr ⟨holds.nonzero c member, rfl⟩

include holds in
/-- One character fewer is left behind an advance. -/
theorem view_shorter {t : State (Nat → Word)} {fuel : Nat} (more : (view format s).peek ≠ 0)
    (next : view format t = (view format s).next)
    (short : (view format s).format.length < fuel + 1) : (view format t).format.length < fuel := by
  obtain ⟨nul, -⟩ | ⟨-, rest⟩ := view_cases holds s
  · exact absurd nul more
  · rw [rest, List.length_cons] at short
    rw [next]
    exact Nat.lt_of_succ_lt_succ short

include holds in
theorem scanFlags_tracks (fuel : Nat) : ∀ {flags : FmtFlags} {s : State (Nat → Word)},
    s.Inside format.length → (view format s).format.length < fuel →
      Tracks format s (scanFlags str fuel flags s)
        (.ok ((parseFlags flags (view format s).format).1,
          { view format s with format := (parseFlags flags (view format s).format).2 })) := by
  induction fuel with
  | zero => exact fun _ short => absurd short (Nat.not_lt_zero _)
  | succ fuel ih =>
    intro flags s inside short
    refine tracks_peek holds inside fun t inside' same => ?_
    obtain ⟨nul, rest⟩ | ⟨more, rest⟩ := view_cases holds s
    · have done : parseFlags flags (view format s).format = (flags, (view format s).format) := by
        rw [rest, parseFlags]
      rw [if_pos nul, done]
      exact tracks_return inside' flags same
    · rw [if_neg more]
      cases added : flags.add (view format s).peek with
      | some flags' =>
        have turn : parseFlags flags (view format s).format =
            parseFlags flags' (view format s).next.format := by
          simp only [rest, parseFlags, added]
        rw [turn]
        refine tracks_advance inside' (same ▸ more) fun t' inside'' next => ?_
        rw [same] at next
        have tail := @ih flags' t' inside'' (view_shorter holds more next short)
        rw [next] at tail
        exact tail
      | none =>
        have stop : parseFlags flags (view format s).format = (flags, (view format s).format) := by
          simp only [rest, parseFlags, added]
        rw [stop]
        exact tracks_return inside' flags same

include holds in
theorem scanNumber_tracks (fuel : Nat) : ∀ {m : Int} {s : State (Nat → Word)},
    s.Inside format.length → (view format s).format.length < fuel →
      Tracks format s (scanNumber str int fuel m s)
        (parseNumber int m (view format s).format >>= fun r =>
          .ok (r.1, { view format s with format := r.2 })) := by
  induction fuel with
  | zero => exact fun _ short => absurd short (Nat.not_lt_zero _)
  | succ fuel ih =>
    intro m s inside short
    refine tracks_peek holds inside fun t inside' same => ?_
    obtain ⟨nul, rest⟩ | ⟨more, rest⟩ := view_cases holds s
    · have done : parseNumber int m (view format s).format = .ok (m, (view format s).format) := by
        rw [rest, parseNumber]
      rw [if_neg (by rw [nul]; decide), done]
      exact tracks_return inside' m same
    · by_cases digit : 48 ≤ (view format s).peek.toNat ∧ (view format s).peek.toNat ≤ 57
      · have turn : parseNumber int m (view format s).format =
            (int (m * 10) >>= fun tens => int (tens + ((view format s).peek.toNat - 48)) >>= fun m =>
              parseNumber int m (view format s).next.format) := by
          rw [rest, parseNumber, if_pos digit]
        rw [if_pos digit, turn, bind_assoc]
        refine follows_lift inside' fun tens _ => ?_
        rw [bind_assoc]
        refine follows_lift inside' fun m _ => ?_
        refine tracks_advance inside' (same ▸ more) fun t' inside'' next => ?_
        rw [same] at next
        have tail := @ih m t' inside'' (view_shorter holds more next short)
        rw [next] at tail
        exact tail
      · have done : parseNumber int m (view format s).format = .ok (m, (view format s).format) := by
          rw [rest, parseNumber, if_neg digit]
        rw [if_neg digit, done]
        exact tracks_return inside' m same

include holds in
/-- A numeral and what follows it. -/
theorem scanNumber_then {fuel : Nat} {m : Int} {β : Type} {q : Int → FormatM β}
    {spec : Int × List Byte → Except Fault (β × FmtCursor)} (inside : s.Inside format.length)
    (short : (view format s).format.length < fuel)
    (next : ∀ m t, t.Inside format.length →
      view format t = { view format s with format := (view format t).format } →
        Tracks format t (q m t) (spec (m, (view format t).format))) :
    Tracks format s ((scanNumber str int fuel m >>= q) s)
      (parseNumber int m (view format s).format >>= spec) := by
  have split : (parseNumber int m (view format s).format >>= spec) =
      ((parseNumber int m (view format s).format >>= fun r =>
        .ok (r.1, { view format s with format := r.2 })) >>= fun r => spec (r.1, r.2.format)) := by
    rw [bind_assoc]
    rfl
  rw [split]
  refine (scanNumber_tracks holds fuel inside short).bind fun m t inside' _ same =>
    next m t inside' ?_
  obtain ⟨r, -, same⟩ := bind_ok same
  have reached : ({ view format s with format := r.2 } : FmtCursor) = view format t :=
    congrArg Prod.snd (Except.ok.inj same)
  rw [← reached]

include holds in
theorem scanWidth_tracks {fuel : Nat} {spec : FmtSpec} (inside : s.Inside format.length)
    (short : (view format s).format.length < fuel) :
    Tracks format s (scanWidth str int fuel spec s) (parseWidth int spec (view format s)) := by
  refine tracks_peek holds inside fun t inside' same => ?_
  unfold parseWidth
  by_cases star : (view format s).peek = chr '*'
  · have more : (view format s).peek ≠ 0 := by
      rw [star]
      decide
    rw [if_pos star, if_pos star]
    refine tracks_vaArg inside' fun t' inside'' arg => ?_
    rw [same] at arg ⊢
    have more' : (view format t').peek ≠ 0 := by
      rw [arg]
      exact more
    dsimp only
    by_cases negative : vaInt (view format s).arg < 0
    · rw [if_pos negative, if_pos negative]
      refine follows_lift inside'' fun width _ => ?_
      exact tracks_advance_return inside'' more' _ (congrArg FmtCursor.next arg)
    · rw [if_neg negative, if_neg negative]
      exact tracks_advance_return inside'' more' _ (congrArg FmtCursor.next arg)
  · rw [if_neg star, if_neg star]
    rw [← same] at short ⊢
    exact scanNumber_then holds inside' short fun width t' inside'' rest =>
      tracks_return inside'' _ rest

include holds in
theorem scanPrecision_tracks {fuel : Nat} {spec : FmtSpec} (inside : s.Inside format.length)
    (short : (view format s).format.length < fuel) :
    Tracks format s (scanPrecision str int fuel spec s)
      (parsePrecision int spec (view format s)) := by
  refine tracks_peek holds inside fun t inside' same => ?_
  unfold parsePrecision
  by_cases dot : (view format s).peek = chr '.'
  · have more : (view format s).peek ≠ 0 := by
      rw [dot]
      decide
    rw [if_pos dot, if_pos dot]
    refine tracks_advance inside' (same ▸ more) fun t₁ inside₁ next => ?_
    rw [same] at next
    refine tracks_peek holds inside₁ fun t₂ inside₂ same₂ => ?_
    rw [next] at same₂ ⊢
    dsimp only
    by_cases star : (view format s).next.peek = chr '*'
    · have more' : (view format s).next.peek ≠ 0 := by
        rw [star]
        decide
      rw [if_pos star, if_pos star]
      refine tracks_vaArg inside₂ fun t₃ inside₃ arg => ?_
      rw [same₂] at arg ⊢
      refine tracks_advance_return inside₃ ?_ _ (congrArg FmtCursor.next arg)
      rw [arg]
      exact more'
    · rw [if_neg star, if_neg star]
      have short' : (view format t₂).format.length < fuel := by
        rw [same₂]
        exact (FmtCursor.next_length _).trans_lt short
      rw [← same₂]
      exact scanNumber_then holds inside₂ short' fun width t₃ inside₃ rest =>
        tracks_return inside₃ _ rest
  · rw [if_neg dot, if_neg dot]
    exact tracks_return inside' _ same

include holds in
theorem scanTwice_tracks {letter : Byte} (visible : letter ≠ 0) (once twice : FmtLen)
    {spec : FmtSpec} (inside : s.Inside format.length) (more : (view format s).peek ≠ 0) :
    Tracks format s (scanTwice str letter once twice spec s)
      (.ok (if (view format s).next.peek = letter then
          ({ spec with length := twice }, (view format s).next.next)
        else ({ spec with length := once }, (view format s).next))) := by
  refine tracks_advance inside more fun t inside' next => ?_
  refine tracks_peek holds inside' fun t' inside'' same => ?_
  rw [next] at same ⊢
  by_cases again : (view format s).next.peek = letter
  · rw [if_pos again, if_pos again]
    refine tracks_advance_return inside'' ?_ _ (congrArg FmtCursor.next same)
    rw [same, again]
    exact visible
  · rw [if_neg again, if_neg again]
    exact tracks_return inside'' _ same

include holds in
theorem scanLength_tracks {spec : FmtSpec} (inside : s.Inside format.length) :
    Tracks format s (scanLength str spec s) (.ok (parseLength spec (view format s))) := by
  refine tracks_peek holds inside fun t inside' same => ?_
  have visible : ∀ {c : Byte}, (view format s).peek = c → c ≠ 0 → (view format t).peek ≠ 0 := by
    rintro c rfl nonzero
    rw [same]
    exact nonzero
  rw [parseLength_eq]
  by_cases h : (view format s).peek = chr 'h'
  · rw [if_pos h, if_pos h, ← same]
    exact scanTwice_tracks holds (by decide) .h .hh inside' (visible h (by decide))
  by_cases l : (view format s).peek = chr 'l'
  · rw [if_neg h, if_neg h, if_pos l, if_pos l, ← same]
    exact scanTwice_tracks holds (by decide) .l .ll inside' (visible l (by decide))
  rw [if_neg h, if_neg h, if_neg l, if_neg l]
  by_cases z : (view format s).peek = chr 'z'
  · rw [if_pos z, if_pos z]
    exact tracks_advance_return inside' (visible z (by decide)) _ (congrArg FmtCursor.next same)
  · rw [if_neg z, if_neg z]
    exact tracks_return inside' _ same

theorem convert_eq (spec : FmtSpec) (cur : FmtCursor) :
    convert spec cur = ((convert spec ⟨[cur.peek], fun _ => cur.arg⟩).1,
      if (specifier cur.peek).readsArg then cur.nextArg else cur) := by
  have peek : FmtCursor.peek ⟨[cur.peek], fun _ => cur.arg⟩ = cur.peek := rfl
  unfold convert
  rw [peek]
  cases specifier cur.peek <;> rfl

/-- Without an argument it does not matter what stands for it. -/
theorem convert_noArg {c : Byte} (noArg : (specifier c).readsArg = false) (spec : FmtSpec)
    (arg arg' : Word) :
    (convert spec ⟨[c], fun _ => arg⟩).1 = (convert spec ⟨[c], fun _ => arg'⟩).1 := by
  have peek : ∀ arg : Word, FmtCursor.peek ⟨[c], fun _ => arg⟩ = c := fun _ => rfl
  unfold convert
  rw [peek, peek]
  cases kind : specifier c with
  | nothing => rfl
  | unknown => rfl
  | _ =>
    rw [kind] at noArg
    cases noArg

include holds in
theorem scanConversion_tracks {spec : FmtSpec} (inside : s.Inside format.length) :
    Tracks format s (scanConversion str spec s) (.ok (convert spec (view format s))) := by
  refine tracks_peek holds inside fun t inside' same => ?_
  rw [convert_eq]
  cases reads : (specifier (view format s).peek).readsArg with
  | true =>
    rw [if_pos rfl, if_pos rfl]
    refine tracks_vaArg inside' fun t' inside'' arg => ?_
    rw [same] at arg ⊢
    exact tracks_return inside'' _ arg
  | false =>
    rw [if_neg (by decide), if_neg (by decide), convert_noArg reads spec _ 0]
    exact tracks_return inside' _ same

/-- The parts of a conversion specification in a row. -/
theorem nextDirective_conv {cur : FmtCursor} (percent : cur.peek = chr '%')
    (conversion : cur.next.peek ≠ chr '%') :
    nextDirective int cur =
      (Except.ok ((parseFlags {} cur.next.format).1,
          { cur.next with format := (parseFlags {} cur.next.format).2 }) >>= fun r =>
        parseWidth int { flags := r.1 } r.2 >>= fun r =>
        parsePrecision int r.1 r.2 >>= fun r =>
        Except.ok (parseLength r.1 r.2) >>= fun r =>
        Except.ok (convert r.1 r.2) >>= fun r =>
        Except.ok (.conv r.1.1 r.1.2, if r.2.peek ≠ 0 then r.2.next else r.2)) := by
  unfold nextDirective parseSpec
  rw [if_neg fun other => other percent, if_neg conversion, bind_assoc]
  refine bind_congr fun width => ?_
  rw [bind_assoc]
  refine bind_congr fun precision => ?_
  have same : (convert (parseLength precision.1 precision.2).1
      (parseLength precision.1 precision.2).2).2.peek = (parseLength precision.1 precision.2).2.peek :=
    congrArg (fun format => format.headD 0) (convert_format ..)
  rw [ok_bind, ok_bind, ok_bind, same]

theorem view_length_le {t : State (Nat → Word)} (forward : s.pos ≤ t.pos) :
    (view format t).format.length ≤ (view format s).format.length := by
  unfold view
  rw [List.length_drop, List.length_drop]
  exact Nat.sub_le_sub_left forward _

include holds in
theorem scanDirective_tracks {fuel : Nat} (inside : s.Inside format.length)
    (short : (view format s).format.length < fuel) (more : (view format s).peek ≠ 0) :
    Tracks format s (scanDirective str int fuel s) (nextDirective int (view format s)) := by
  refine tracks_peek holds inside fun t inside' same => ?_
  by_cases percent : (view format s).peek = chr '%'
  · rw [if_neg (fun other => other percent)]
    refine tracks_advance inside' (same ▸ more) fun t₁ inside₁ next => ?_
    rw [same] at next
    refine tracks_peek holds inside₁ fun t₂ inside₂ same₂ => ?_
    rw [next] at same₂ ⊢
    by_cases twice : (view format s).next.peek = chr '%'
    · have done : nextDirective int (view format s) =
          .ok (.literal (chr '%'), (view format s).next.next) := by
        rw [nextDirective, if_neg fun other => other percent, if_pos twice]
      rw [if_pos twice, done]
      refine tracks_advance_return inside₂ ?_ _ (congrArg FmtCursor.next same₂)
      rw [same₂, twice]
      decide
    · rw [if_neg twice, nextDirective_conv percent twice, ← same₂]
      have short₂ : (view format t₂).format.length < fuel := by
        rw [same₂]
        exact (FmtCursor.next_length _).trans_lt short
      refine (scanFlags_tracks holds fuel inside₂ short₂).bind fun flags t₃ inside₃ forward₃ _ => ?_
      have short₃ := (view_length_le forward₃).trans_lt short₂
      refine (scanWidth_tracks holds inside₃ short₃).bind fun spec t₄ inside₄ forward₄ _ => ?_
      have short₄ := (view_length_le forward₄).trans_lt short₃
      refine (scanPrecision_tracks holds inside₄ short₄).bind fun spec t₅ inside₅ _ _ => ?_
      refine (scanLength_tracks holds inside₅).bind fun spec t₆ inside₆ _ _ => ?_
      refine (scanConversion_tracks holds inside₆).bind fun conv t₇ inside₇ _ _ => ?_
      refine tracks_peek holds inside₇ fun t₈ inside₈ same₈ => ?_
      dsimp only
      by_cases last : (view format t₇).peek ≠ 0
      · rw [if_pos last, if_pos last]
        refine tracks_advance_return inside₈ ?_ _ (congrArg FmtCursor.next same₈)
        rw [same₈]
        exact last
      · rw [if_neg last, if_neg last]
        exact tracks_return inside₈ _ same₈
  · have done : nextDirective int (view format s) =
        .ok (.literal (view format s).peek, (view format s).next) := by
      rw [nextDirective, if_pos percent]
    rw [if_pos percent, done]
    exact tracks_advance_return inside' (same ▸ more) _ (congrArg FmtCursor.next same)

end

/-! ### The loop -/

/-- The characters that a turn consumes. -/
def Turn.piece (format : List Byte) (t : Turn) : List Byte :=
  (format.drop t.start).take (t.stop - t.start)

/-- A turn consumes a character that is output as it is, or a conversion specification. -/
def Turn.Sound (format : List Byte) (t : Turn) : Prop :=
  (∃ c, c ≠ chr '%' ∧ t.piece format = [c] ∧ t.directive = .literal c) ∨
    IsSpecification (t.piece format) (format.getD t.stop 0)

/-- The turns consume the indices from `start` to `stop`, each by one of them. -/
def Consecutive (start : Nat) : List Turn → Nat → Prop
  | [], stop => start = stop
  | t :: turns, stop => t.start = start ∧ t.start < t.stop ∧ Consecutive t.stop turns stop

section

variable {str : Nat → Byte} {format : List Byte} (holds : CString str format)
  {int : Int → Except Fault Int} {render : Directive → Except Fault (List Byte)}

/-- A turn of the loop from `s` to `t`. -/
theorem turn_sound {s t : State (Nat → Word)} {d : Directive} (more : (view format s).peek ≠ 0)
    (inside : t.Inside format.length) (forward : s.pos ≤ t.pos)
    (parsed : nextDirective int (view format s) = .ok (d, view format t)) (buf : List Byte) :
    s.pos < t.pos ∧ Turn.Sound format ⟨s.pos, t.pos, d, buf⟩ := by
  obtain ⟨piece, consumed, shape⟩ := nextDirective_consumes more parsed
  have shorter := nextDirective_length more parsed
  have lengths := congrArg List.length consumed
  unfold view at consumed lengths shorter
  rw [List.length_drop, List.length_append, List.length_drop] at lengths
  rw [List.length_drop, List.length_drop] at shorter
  have bound := inside.1
  have count : t.pos - s.pos = piece.length := by omega
  have same : Turn.piece format ⟨s.pos, t.pos, d, buf⟩ = piece := by
    unfold Turn.piece
    dsimp only at consumed ⊢
    rw [count, consumed, List.take_left]
  have next : (view format t).peek = format.getD t.pos 0 := by
    unfold view FmtCursor.peek
    simp [List.headD_eq_head?_getD, List.head?_drop]
  refine ⟨by omega, ?_⟩
  unfold Turn.Sound
  rw [same, ← next]
  exact shape

include holds in
/-- **The loop follows `formatLoop`**: it ends, has read nothing behind the NUL, and its turns
consume the format up to the NUL or to the fault that stops it. -/
theorem scanLoop_tracks {rounds : Nat} (fuel : Nat) : ∀ {s : State (Nat → Word)},
    s.Inside format.length → (view format s).format.length < fuel →
      (view format s).format.length < rounds →
        ∃ turns fault s', scanLoop str int render rounds fuel s = some ((turns, fault), s') ∧
          s'.Inside format.length ∧
          formatLoop int render (view format s) =
            (turns.map fun t => (t.directive, t.buf), fault) ∧
          (∃ stop ≤ format.length, Consecutive s.pos turns stop ∧
            (fault = none → stop = format.length)) ∧
          ∀ t ∈ turns, t.Sound format := by
  induction fuel with
  | zero => exact fun _ short => absurd short (Nat.not_lt_zero _)
  | succ fuel ih =>
    intro s inside short shortRounds
    have here := view_peek holds inside
    rw [scanLoop]
    by_cases done : (view format s).peek = 0
    · rw [if_pos (here.trans done), formatLoop_end done]
      have atEnd : s.pos = format.length := by
        obtain ⟨-, rest⟩ | ⟨more, -⟩ := view_cases holds s
        · have ended := congrArg List.length rest
          unfold view at ended
          rw [List.length_drop, List.length_nil] at ended
          have := inside.1
          omega
        · exact absurd done more
      exact ⟨[], none, s.read, rfl, inside.read, rfl,
        ⟨s.pos, inside.1, rfl, fun _ => atEnd⟩, List.forall_mem_nil _⟩
    · have tracked : Tracks format s.read (scanDirective str int rounds s.read)
          (nextDirective int (view format s)) :=
        scanDirective_tracks holds inside.read shortRounds done
      obtain ⟨result, t, ran, inside', forward, parsed⟩ := tracked
      rw [if_neg fun nul => done (here.symm.trans nul), ran]
      have stopped : ∀ fault : Fault, ∃ stop ≤ format.length, Consecutive s.pos [] stop ∧
          (some fault = none → stop = format.length) :=
        fun _ => ⟨s.pos, inside.1, rfl, fun noFault => by cases noFault⟩
      cases result with
      | error fault =>
        rw [formatLoop_error done parsed]
        exact ⟨[], some fault, t, rfl, inside', rfl, stopped fault, List.forall_mem_nil _⟩
      | ok d =>
        have parsed' : nextDirective int (view format s) = .ok (d, view format t) := parsed
        have shorter := nextDirective_length done parsed'
        rw [formatLoop_ok done parsed']
        dsimp only
        cases render d with
        | error fault =>
          exact ⟨[], some fault, t, rfl, inside', rfl, stopped fault, List.forall_mem_nil _⟩
        | ok buf =>
          obtain ⟨before, sound⟩ := turn_sound done inside' forward parsed' buf
          obtain ⟨turns, fault, t', ran', inside'', loop, ⟨stop, bound, rest, all⟩, sounds⟩ :=
            ih inside' (by omega) (by omega)
          rw [ran', loop]
          exact ⟨_, fault, t', rfl, inside'', rfl, ⟨stop, bound, ⟨rfl, before, rest⟩, all⟩,
            List.forall_mem_cons.mpr ⟨sound, sounds⟩⟩

end

/-! ### Without faults -/

section

variable {int : Int → Except Fault Int} (total : ∀ i, ∃ j, int i = .ok j)

include total in
theorem parseNumber_total (format : List Byte) : ∀ n, ∃ r, parseNumber int n format = .ok r := by
  induction format with
  | nil => exact fun n => ⟨_, rfl⟩
  | cons c rest ih =>
    intro n
    unfold parseNumber
    split
    · obtain ⟨tens, first⟩ := total (n * 10)
      obtain ⟨m, second⟩ := total (tens + (c.toNat - 48))
      rw [first, ok_bind, second, ok_bind]
      exact ih m
    · exact ⟨_, rfl⟩

include total in
theorem parseWidth_total (spec : FmtSpec) (cur : FmtCursor) :
    ∃ r, parseWidth int spec cur = .ok r := by
  unfold parseWidth
  split
  · dsimp only
    split
    · obtain ⟨width, negated⟩ := total (-vaInt cur.arg)
      rw [negated]
      exact ⟨_, rfl⟩
    · exact ⟨_, rfl⟩
  · obtain ⟨r, number⟩ := parseNumber_total total cur.format 0
    rw [number]
    exact ⟨_, rfl⟩

include total in
theorem parsePrecision_total (spec : FmtSpec) (cur : FmtCursor) :
    ∃ r, parsePrecision int spec cur = .ok r := by
  unfold parsePrecision
  split
  · dsimp only
    split
    · exact ⟨_, rfl⟩
    · obtain ⟨r, number⟩ := parseNumber_total total cur.next.format 0
      rw [number]
      exact ⟨_, rfl⟩
  · exact ⟨_, rfl⟩

include total in
theorem nextDirective_total (cur : FmtCursor) : ∃ d cur', nextDirective int cur = .ok (d, cur') := by
  by_cases percent : cur.peek = chr '%'
  · by_cases twice : cur.next.peek = chr '%'
    · exact ⟨_, _, by rw [nextDirective, if_neg fun other => other percent, if_pos twice]⟩
    · rw [nextDirective_conv percent twice, ok_bind]
      obtain ⟨width, first⟩ := parseWidth_total total { flags := (parseFlags {} cur.next.format).1 }
        { cur.next with format := (parseFlags {} cur.next.format).2 }
      obtain ⟨precision, second⟩ := parsePrecision_total total width.1 width.2
      rw [first, ok_bind, second]
      exact ⟨_, _, rfl⟩
  · exact ⟨_, _, by rw [nextDirective, if_pos percent]⟩

include total in
theorem formatLoop_total {render : Directive → Except Fault (List Byte)}
    (renders : ∀ d, ∃ buf, render d = .ok buf) (cur : FmtCursor) :
    (formatLoop int render cur).2 = none := by
  induction cur using FmtCursor.rest_induction with
  | done cur done => rw [formatLoop_end done]
  | turn cur more ih =>
    obtain ⟨d, after, parsed⟩ := nextDirective_total total cur
    obtain ⟨buf, rendered⟩ := renders d
    rw [formatLoop_ok more parsed, rendered]
    exact ih after (nextDirective_length more parsed)

end

/-- **A call consumes its format**: the loop ends and has read nothing behind the NUL; its turns
consume the characters before it, each one exactly once, up to the fault that stops it, if any; and
each consumes a character that is output as it is, or a conversion specification. -/
structure Consumes (str : Nat → Byte) (format : List Byte) (varargs : Nat → Word)
    (int : Int → Except Fault Int) (render : Directive → Except Fault (List Byte))
    (turns : List Turn) (fault : Option Fault) : Prop where
  ends : ∃ s, scanLoop str int render (format.length + 1) (format.length + 1) ⟨0, varargs, []⟩ =
    some ((turns, fault), s) ∧ ∀ i ∈ s.reads, i ≤ format.length
  partition : ∃ stop ≤ format.length, Consecutive 0 turns stop ∧
    (fault = none → stop = format.length)
  sound : ∀ t ∈ turns, t.Sound format

theorem consumes_formatLoop {str : Nat → Byte} {format : List Byte} (holds : CString str format)
    (varargs : Nat → Word) (int : Int → Except Fault Int)
    (render : Directive → Except Fault (List Byte)) :
    ∃ turns fault, Consumes str format varargs int render turns fault ∧
      formatLoop int render ⟨format, varargs⟩ =
        (turns.map fun t => (t.directive, t.buf), fault) := by
  have start : State.Inside (⟨0, varargs, []⟩ : State (Nat → Word)) format.length :=
    ⟨Nat.zero_le _, List.forall_mem_nil _⟩
  have whole : view format ⟨0, varargs, []⟩ = ⟨format, varargs⟩ := rfl
  obtain ⟨turns, fault, s, ran, inside, loop, partition, sound⟩ :=
    scanLoop_tracks holds (format.length + 1) start (Nat.lt_succ_self _) (Nat.lt_succ_self _)
  exact ⟨turns, fault, ⟨⟨s, ran, inside.2⟩, partition, sound⟩, loop⟩

/-- A single character other than `%` is a literal. -/
theorem Turn.Sound.literal {format : List Byte} {t : Turn} (sound : t.Sound format) {c : Byte}
    (one : t.piece format = [c]) (plain : c ≠ chr '%') : t.directive = .literal c := by
  obtain ⟨c', -, same, literal⟩ | ⟨flags, width, precision, length, conv, same, -⟩ := sound
  · rw [literal, List.head_eq_of_cons_eq (same.symm.trans one)]
  · exact absurd (List.head_eq_of_cons_eq (same.symm.trans one)).symm plain

/-- **The format interpreters consume exactly their format**, also one that is cut off inside a
conversion specification. Nothing but a fault of an `int` or of `buf` can stop them; characters
outside conversion specifications are output as they are, in order. -/
theorem format_consumed {str : Nat → Byte} {format : List Byte} (holds : CString str format)
    (varargs : Nat → Word) (strings : Word → List Byte) (ports : List (BitVec 16)) (port : BitVec 16)
    (registered : getPortIndex ports port ≠ none) :
    (∀ int render, (∀ i, ∃ j, int i = .ok j) → (∀ d, ∃ buf, render d = .ok buf) →
      ∃ turns, Consumes str format varargs int render turns none) ∧
    ∃ turns fault, Consumes str format varargs checkInt (render strings) turns fault ∧
      printf strings format varargs =
        (turns.flatMap fun t => printfCalls t.buf t.directive, fault) ∧
      serialPrintf ports port strings format varargs =
        (turns.flatMap fun t => serialChars ports port t.buf t.directive, fault) ∧
      ∀ t ∈ turns, ∀ c, t.piece format = [c] → c ≠ chr '%' →
        printfCalls t.buf t.directive = [.putchar c] ∧
          serialChars ports port t.buf t.directive = [c] := by
  constructor
  · intro int render total renders
    obtain ⟨turns, fault, consumes, loop⟩ := consumes_formatLoop holds varargs int render
    have noFault := formatLoop_total total renders ⟨format, varargs⟩
    rw [loop] at noFault
    subst noFault
    exact ⟨turns, consumes⟩
  · obtain ⟨turns, fault, consumes, loop⟩ :=
      consumes_formatLoop holds varargs checkInt (render strings)
    refine ⟨turns, fault, consumes, ?_, ?_, fun t member c one plain => ?_⟩
    · unfold printf formatCall
      rw [loop]
      dsimp only
      rw [List.flatMap_map]
    · unfold serialPrintf formatCall
      rw [if_neg registered, loop]
      dsimp only
      rw [List.flatMap_map]
    · rw [(consumes.sound t member).literal one plain]
      exact ⟨rfl, rfl⟩

/-- A format that ends behind a flag; the memory behind its NUL is not zero. -/
theorem format_consumed_cut :
    ∃ turns fault,
      Consumes (fun i => if i ≤ 3 then (ascii "a%-").getD i 0 else 7) (ascii "a%-") (fun _ => 0)
        checkInt (render fun _ => []) turns fault ∧
      printf (fun _ => []) (ascii "a%-") (fun _ => 0) =
        (turns.flatMap fun t => printfCalls t.buf t.directive, fault) := by
  have holds : CString (fun i => if i ≤ 3 then (ascii "a%-").getD i 0 else 7) (ascii "a%-") :=
    ⟨fun i small => if_pos small, by decide⟩
  obtain ⟨-, turns, fault, consumes, output, -⟩ :=
    format_consumed holds (fun _ => 0) (fun _ => []) [0x3F8] 0x3F8 (by decide)
  exact ⟨turns, fault, consumes, output⟩

end ShipOS
