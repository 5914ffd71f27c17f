/-
**Directives of a format string.**

The parsing that `printf` (`tty.c`) and `serial_printf` (`serial.c`) have in common: flags, width,
precision, length modifier and conversion, with the arguments they read. `formatLoop` is the loop
around it; it lists the directives reached, each with what `buf` holds, up to the end of the format
or the first fault.

* `nextDirective_consumes` — a turn consumes one character or one conversion specification, so that
  the loop ends (`nextDirective_length`);
* `nextDirective_checked` — parsing with `int` arithmetic is parsing with unbounded integers, up to
  a width or a precision that is no `int`;
* `formatLoop_end`, `formatLoop_error`, `formatLoop_ok` — the turns of the loop.
-/

import ShipOS.Tty.Format

namespace ShipOS

open ByteMem Buffer

/-! ### Directives -/

/-- Where a call stands: the rest of the format string, whose end stands for its NUL, and the
arguments not yet read, each in the 64-bit slot it is passed in. -/
structure FmtCursor where
  format : List Byte
  varargs : Nat → Word

namespace FmtCursor

variable (cur : FmtCursor)

/-- `*format`. -/
def peek : Byte := cur.format.headD 0

/-- `format++`. -/
def next : FmtCursor := { cur with format := cur.format.tail }

/-- The slot that `va_arg` reads. -/
def arg : Word := cur.varargs 0

def nextArg : FmtCursor := { cur with varargs := fun i => cur.varargs (i + 1) }

end FmtCursor

/-- A conversion with its argument. -/
inductive Conv
  /-- `d` and `i`. -/
  | signed (num : Int)
  /-- `u`, `x`, `X`, `o`, `b` and `p`. -/
  | unsigned (radix num : Nat)
  | string (str : Word)
  | char (c : Byte)
  /-- `n`, which is not supported. -/
  | nothing
  /-- Any other character; NUL where the format ends. -/
  | unknown (c : Byte)
  deriving DecidableEq, Repr

/-- What one turn of the loop reads from the format. -/
inductive Directive
  /-- A character to be output as it is, also for `%%`. -/
  | literal (c : Byte)
  | conv (spec : FmtSpec) (kind : Conv)
  deriving DecidableEq, Repr

/-! ### Parsing

The parsers are given the arithmetic of `int`: the code's is `checkInt`, unbounded integers are
`Except.ok`. -/

/-- The flag that a character sets. -/
def FmtFlags.add (flags : FmtFlags) (c : Byte) : Option FmtFlags :=
  if c = chr '-' then some { flags with left := true }
  else if c = chr '+' then some { flags with plus := true }
  else if c = chr ' ' then some { flags with space := true }
  else if c = chr '#' then some { flags with hash := true }
  else if c = chr '0' then some { flags with zero := true }
  else none

def parseFlags (flags : FmtFlags) : List Byte → FmtFlags × List Byte
  | [] => (flags, [])
  | c :: rest =>
    match flags.add c with
    | some flags => parseFlags flags rest
    | none => (flags, c :: rest)

/-- The value of an `int` argument. -/
def vaInt (arg : Word) : Int := (arg.setWidth 32).toInt

section

variable (int : Int → Except Fault Int)

/-- `while (*format >= '0' && *format <= '9') n = n * 10 + (*format - '0');`. -/
def parseNumber (n : Int) : List Byte → Except Fault (Int × List Byte)
  | [] => .ok (n, [])
  | c :: rest =>
    if 48 ≤ c.toNat ∧ c.toNat ≤ 57 then do
      let tens ← int (n * 10)
      let n ← int (tens + (c.toNat - 48))
      parseNumber n rest
    else .ok (n, c :: rest)

def parseWidth (spec : FmtSpec) (cur : FmtCursor) : Except Fault (FmtSpec × FmtCursor) :=
  if cur.peek = chr '*' then
    let width := vaInt cur.arg
    if width < 0 then do
      let width ← int (-width)
      .ok ({ spec with flags := { spec.flags with left := true }, width := width },
        cur.nextArg.next)
    else .ok ({ spec with width := width }, cur.nextArg.next)
  else do
    let (width, format) ← parseNumber int 0 cur.format
    .ok ({ spec with width := if width = 0 then -1 else width }, { cur with format := format })

def parsePrecision (spec : FmtSpec) (cur : FmtCursor) : Except Fault (FmtSpec × FmtCursor) :=
  if cur.peek = chr '.' then
    let cur := cur.next
    if cur.peek = chr '*' then
      let precision := vaInt cur.arg
      .ok ({ spec with precision := if precision < 0 then -1 else precision }, cur.nextArg.next)
    else do
      let (precision, format) ← parseNumber int 0 cur.format
      .ok ({ spec with precision := precision }, { cur with format := format })
  else .ok (spec, cur)

/-- The length modifier that two characters spell, and whether it is both of them. -/
def lengthModifier (first second : Byte) : Option (FmtLen × Bool) :=
  if first = chr 'h' then some (if second = chr 'h' then (.hh, true) else (.h, false))
  else if first = chr 'l' then some (if second = chr 'l' then (.ll, true) else (.l, false))
  else if first = chr 'z' then some (.z, false)
  else none

def parseLength (spec : FmtSpec) (cur : FmtCursor) : FmtSpec × FmtCursor :=
  match lengthModifier cur.peek cur.next.peek with
  | some (length, true) => ({ spec with length := length }, cur.next.next)
  | some (length, false) => ({ spec with length := length }, cur.next)
  | none => (spec, cur)

def parseSpec (cur : FmtCursor) : Except Fault (FmtSpec × FmtCursor) := do
  let (flags, format) := parseFlags {} cur.format
  let (spec, cur) ← parseWidth int { flags := flags } { cur with format := format }
  let (spec, cur) ← parsePrecision int spec cur
  .ok (parseLength spec cur)

end

/-- The argument of a signed conversion. -/
def signedArg (arg : Word) : FmtLen → Int
  | .hh => (arg.setWidth 8).toInt
  | .h => (arg.setWidth 16).toInt
  | .l | .ll | .z => arg.toInt
  | .default => vaInt arg

/-- The argument of an unsigned conversion. -/
def unsignedArg (arg : Word) : FmtLen → Nat
  | .hh => (arg.setWidth 8).toNat
  | .h => (arg.setWidth 16).toNat
  | .l | .ll | .z => arg.toNat
  | .default => (arg.setWidth 32).toNat

/-- The cases of the switch on the conversion specifier. -/
inductive Specifier
  | signed | unsigned (radix : Nat) | upperHex | pointer | string | char | nothing | unknown

def specifier (c : Byte) : Specifier :=
  if c = chr 'd' ∨ c = chr 'i' then .signed
  else if c = chr 'u' then .unsigned 10
  else if c = chr 'x' then .unsigned 16
  else if c = chr 'X' then .upperHex
  else if c = chr 'o' then .unsigned 8
  else if c = chr 'b' then .unsigned 2
  else if c = chr 'p' then .pointer
  else if c = chr 's' then .string
  else if c = chr 'c' then .char
  else if c = chr 'n' then .nothing
  else .unknown

/-- The conversion that `*format` specifies, with its argument. -/
def convert (spec : FmtSpec) (cur : FmtCursor) : (FmtSpec × Conv) × FmtCursor :=
  match specifier cur.peek with
  | .signed => ((spec, .signed (signedArg cur.arg spec.length)), cur.nextArg)
  | .unsigned radix => ((spec, .unsigned radix (unsignedArg cur.arg spec.length)), cur.nextArg)
  | .upperHex =>
    (({ spec with flags := { spec.flags with upper := true } },
      .unsigned 16 (unsignedArg cur.arg spec.length)), cur.nextArg)
  | .pointer =>
    (({ spec with flags := { spec.flags with hash := true },
                  precision := if spec.precision < 0 then 1 else spec.precision },
      .unsigned 16 cur.arg.toNat), cur.nextArg)
  | .string => ((spec, .string cur.arg), cur.nextArg)
  | .char => ((spec, .char (cur.arg.setWidth 8)), cur.nextArg)
  | .nothing => ((spec, .nothing), cur)
  | .unknown => ((spec, .unknown cur.peek), cur)

/-- What one turn of the loop reads at `*format ≠ 0`. -/
def nextDirective (int : Int → Except Fault Int) (cur : FmtCursor) :
    Except Fault (Directive × FmtCursor) :=
  if cur.peek ≠ chr '%' then .ok (.literal cur.peek, cur.next)
  else if cur.next.peek = chr '%' then .ok (.literal (chr '%'), cur.next.next)
  else do
    let (spec, cur) ← parseSpec int cur.next
    let ((spec, conv), after) := convert spec cur
    .ok (.conv spec conv, if cur.peek ≠ 0 then after.next else after)

/-! ### What a turn consumes -/

/-- A numeral, which may be empty, or `*`. -/
def NumberOrStar (part : List Byte) : Prop :=
  part = ascii "*" ∨ ∀ c ∈ part, 48 ≤ c.toNat ∧ c.toNat ≤ 57

/-- A dot with a numeral or `*` behind it. -/
def IsPrecision (part : List Byte) : Prop := ∃ digits, part = chr '.' :: digits ∧ NumberOrStar digits

/-- **A conversion specification**: `%`, flags, a width, a precision, a length modifier and the
conversion character, which is missing only where the next character is the NUL. -/
def IsSpecification (piece : List Byte) (next : Byte) : Prop :=
  ∃ flags width precision length conv,
    piece = chr '%' :: (flags ++ (width ++ (precision ++ (length ++ conv)))) ∧
      (∀ c ∈ flags, c ∈ ascii "-+ #0") ∧ NumberOrStar width ∧
      (precision = [] ∨ IsPrecision precision) ∧
      length ∈ [[], ascii "h", ascii "hh", ascii "l", ascii "ll", ascii "z"] ∧
      (conv.length = 1 ∨ conv = [] ∧ next = 0)

theorem FmtFlags.add_mem {flags flags' : FmtFlags} {c : Byte} (added : flags.add c = some flags') :
    c ∈ ascii "-+ #0" := by
  unfold FmtFlags.add at added
  split_ifs at added with h₁ h₂ h₃ h₄ h₅
  · exact h₁ ▸ by decide
  · exact h₂ ▸ by decide
  · exact h₃ ▸ by decide
  · exact h₄ ▸ by decide
  · exact h₅ ▸ by decide

theorem parseFlags_consumes (format : List Byte) : ∀ flags : FmtFlags,
    ∃ part, format = part ++ (parseFlags flags format).2 ∧ ∀ c ∈ part, c ∈ ascii "-+ #0" := by
  induction format with
  | nil => exact fun _ => ⟨[], rfl, List.forall_mem_nil _⟩
  | cons c rest ih =>
    intro flags
    unfold parseFlags
    cases added : flags.add c with
    | some flags =>
      obtain ⟨part, consumed, all⟩ := ih flags
      exact ⟨c :: part, congrArg (c :: ·) consumed,
        List.forall_mem_cons.mpr ⟨FmtFlags.add_mem added, all⟩⟩
    | none => exact ⟨[], rfl, List.forall_mem_nil _⟩

section

variable {int : Int → Except Fault Int} {cur cur' : FmtCursor}

theorem parseNumber_consumes {format rest : List Byte} {m : Int} : ∀ {n : Int},
    parseNumber int n format = .ok (m, rest) →
      ∃ part, format = part ++ rest ∧ ∀ c ∈ part, 48 ≤ c.toNat ∧ c.toNat ≤ 57 := by
  induction format with
  | nil =>
    intro n done
    obtain ⟨-, rfl⟩ := Prod.mk.inj (Except.ok.inj done)
    exact ⟨[], rfl, List.forall_mem_nil _⟩
  | cons c format ih =>
    intro n done
    unfold parseNumber at done
    split at done <;> rename_i digit
    · obtain ⟨tens, -, done⟩ := bind_ok done
      obtain ⟨next, -, done⟩ := bind_ok done
      obtain ⟨part, consumed, all⟩ := ih done
      exact ⟨c :: part, congrArg (c :: ·) consumed, List.forall_mem_cons.mpr ⟨digit, all⟩⟩
    · obtain ⟨-, rfl⟩ := Prod.mk.inj (Except.ok.inj done)
      exact ⟨[], rfl, List.forall_mem_nil _⟩

theorem FmtCursor.format_cons (more : cur.peek ≠ 0) :
    cur.format = cur.peek :: cur.next.format := by
  unfold FmtCursor.peek at more
  unfold FmtCursor.peek FmtCursor.next
  cases format : cur.format with
  | nil => exact absurd (by rw [format]; rfl) more
  | cons c rest => rfl

theorem FmtCursor.format_eq {c : Byte} (here : cur.peek = c) (visible : c ≠ 0) :
    cur.format = c :: cur.next.format := by
  subst here
  exact FmtCursor.format_cons visible

theorem FmtCursor.next_length (cur : FmtCursor) : cur.next.format.length ≤ cur.format.length := by
  unfold FmtCursor.next
  simp

theorem parseWidth_consumes {spec spec' : FmtSpec}
    (done : parseWidth int spec cur = .ok (spec', cur')) :
    ∃ part, cur.format = part ++ cur'.format ∧ NumberOrStar part := by
  unfold parseWidth at done
  split at done <;> rename_i star
  · have consumed : cur.format = ascii "*" ++ cur.nextArg.next.format :=
      FmtCursor.format_eq star (by decide)
    dsimp only at done
    split at done
    · obtain ⟨width, -, done⟩ := bind_ok done
      obtain ⟨-, rfl⟩ := Prod.mk.inj (Except.ok.inj done)
      exact ⟨ascii "*", consumed, .inl rfl⟩
    · obtain ⟨-, rfl⟩ := Prod.mk.inj (Except.ok.inj done)
      exact ⟨ascii "*", consumed, .inl rfl⟩
  · obtain ⟨⟨width, format⟩, number, done⟩ := bind_ok done
    obtain ⟨-, rfl⟩ := Prod.mk.inj (Except.ok.inj done)
    obtain ⟨part, consumed, digits⟩ := parseNumber_consumes number
    exact ⟨part, consumed, .inr digits⟩

theorem parsePrecision_consumes {spec spec' : FmtSpec}
    (done : parsePrecision int spec cur = .ok (spec', cur')) :
    ∃ part, cur.format = part ++ cur'.format ∧ (part = [] ∨ IsPrecision part) := by
  unfold parsePrecision at done
  split at done <;> rename_i dot
  · have consumed : cur.format = chr '.' :: cur.next.format := FmtCursor.format_eq dot (by decide)
    rw [consumed]
    dsimp only at done
    split at done <;> rename_i star
    · obtain ⟨-, rfl⟩ := Prod.mk.inj (Except.ok.inj done)
      have consumed' : cur.next.format = ascii "*" ++ cur.next.nextArg.next.format :=
        FmtCursor.format_eq star (by decide)
      exact ⟨chr '.' :: ascii "*", congrArg (chr '.' :: ·) consumed', .inr ⟨_, rfl, .inl rfl⟩⟩
    · obtain ⟨⟨precision, format⟩, number, done⟩ := bind_ok done
      obtain ⟨-, rfl⟩ := Prod.mk.inj (Except.ok.inj done)
      obtain ⟨part, consumed', digits⟩ := parseNumber_consumes number
      exact ⟨chr '.' :: part, congrArg (chr '.' :: ·) consumed', .inr ⟨part, rfl, .inr digits⟩⟩
  · obtain ⟨-, rfl⟩ := Prod.mk.inj (Except.ok.inj done)
    exact ⟨[], rfl, .inl rfl⟩

theorem parseLength_eq (spec : FmtSpec) (cur : FmtCursor) :
    parseLength spec cur =
      if cur.peek = chr 'h' then
        if cur.next.peek = chr 'h' then ({ spec with length := .hh }, cur.next.next)
        else ({ spec with length := .h }, cur.next)
      else if cur.peek = chr 'l' then
        if cur.next.peek = chr 'l' then ({ spec with length := .ll }, cur.next.next)
        else ({ spec with length := .l }, cur.next)
      else if cur.peek = chr 'z' then ({ spec with length := .z }, cur.next)
      else (spec, cur) := by
  unfold parseLength lengthModifier
  split_ifs <;> rfl

theorem parseLength_consumes (spec : FmtSpec) (cur : FmtCursor) :
    ∃ part, cur.format = part ++ (parseLength spec cur).2.format ∧
      part ∈ [[], ascii "h", ascii "hh", ascii "l", ascii "ll", ascii "z"] := by
  have one : ∀ {c : Byte}, cur.peek = c → c ≠ 0 → cur.format = [c] ++ cur.next.format :=
    fun here visible => FmtCursor.format_eq here visible
  have two : ∀ {c : Byte}, cur.peek = c → cur.next.peek = c → c ≠ 0 →
      cur.format = [c, c] ++ cur.next.next.format := fun here again visible =>
    (one here visible).trans (congrArg (_ :: ·) (FmtCursor.format_eq again visible))
  rw [parseLength_eq]
  split_ifs with h hh l ll z
  · exact ⟨_, two h hh (by decide), by decide⟩
  · exact ⟨_, one h (by decide), by decide⟩
  · exact ⟨_, two l ll (by decide), by decide⟩
  · exact ⟨_, one l (by decide), by decide⟩
  · exact ⟨_, one z (by decide), by decide⟩
  · exact ⟨[], rfl, by decide⟩

theorem convert_format (spec : FmtSpec) (cur : FmtCursor) :
    (convert spec cur).2.format = cur.format := by
  unfold convert
  cases specifier cur.peek <;> rfl

/-- The conversion character, unless the format ends before it. -/
theorem conversion_consumes (spec : FmtSpec) (cur : FmtCursor) :
    ∃ conv, cur.format =
        conv ++ (if cur.peek ≠ 0 then (convert spec cur).2.next else (convert spec cur).2).format ∧
      (conv.length = 1 ∨ conv = [] ∧
        (if cur.peek ≠ 0 then (convert spec cur).2.next else (convert spec cur).2).peek = 0) := by
  have same := convert_format spec cur
  by_cases more : cur.peek ≠ 0
  · rw [if_pos more]
    refine ⟨[cur.peek], ?_, .inl rfl⟩
    rw [FmtCursor.next, same]
    exact FmtCursor.format_cons more
  · rw [if_neg more]
    refine ⟨[], same.symm, .inr ⟨rfl, ?_⟩⟩
    rw [FmtCursor.peek, same]
    exact not_not.mp more

/-- **A turn consumes a character that is output as it is, or a conversion specification.** -/
theorem nextDirective_consumes {d : Directive} (more : cur.peek ≠ 0)
    (done : nextDirective int cur = .ok (d, cur')) :
    ∃ piece, cur.format = piece ++ cur'.format ∧
      ((∃ c, c ≠ chr '%' ∧ piece = [c] ∧ d = .literal c) ∨ IsSpecification piece cur'.peek) := by
  unfold nextDirective at done
  split at done <;> rename_i percent
  · obtain ⟨rfl, rfl⟩ := Prod.mk.inj (Except.ok.inj done)
    exact ⟨[cur.peek], FmtCursor.format_cons more, .inl ⟨cur.peek, percent, rfl, rfl⟩⟩
  · have first : cur.format = chr '%' :: cur.next.format :=
      FmtCursor.format_eq (not_not.mp percent) (by decide)
    rw [first]
    split at done <;> rename_i twice
    · obtain ⟨rfl, rfl⟩ := Prod.mk.inj (Except.ok.inj done)
      refine ⟨[chr '%', chr '%'], congrArg (chr '%' :: ·) (FmtCursor.format_eq twice (by decide)),
        .inr ⟨[], [], [], [], [chr '%'], rfl, List.forall_mem_nil _, .inr (List.forall_mem_nil _),
          .inl rfl, by decide, .inl rfl⟩⟩
    · obtain ⟨⟨spec, after⟩, parsed, done⟩ := bind_ok done
      obtain ⟨-, rfl⟩ := Prod.mk.inj (Except.ok.inj done)
      unfold parseSpec at parsed
      obtain ⟨⟨spec₁, cur₁⟩, width, parsed⟩ := bind_ok parsed
      obtain ⟨⟨spec₂, cur₂⟩, precision, parsed⟩ := bind_ok parsed
      obtain ⟨flags, hflags, isFlags⟩ := parseFlags_consumes cur.next.format {}
      obtain ⟨widthPart, hwidth, isWidth⟩ := parseWidth_consumes width
      obtain ⟨precisionPart, hprecision, isPrecision⟩ := parsePrecision_consumes precision
      obtain ⟨lengthPart, hlength, isLength⟩ := parseLength_consumes spec₂ cur₂
      rw [Except.ok.inj parsed] at hlength
      obtain ⟨conv, hconv, isConv⟩ := conversion_consumes spec after
      have consumed : cur.next.format =
          flags ++ (widthPart ++ (precisionPart ++ (lengthPart ++ conv))) ++
          (if after.peek ≠ 0 then (convert spec after).2.next else (convert spec after).2).format := by
        dsimp only at hwidth hlength
        rw [List.append_assoc, List.append_assoc, List.append_assoc, List.append_assoc, ← hconv,
          ← hlength, ← hprecision, ← hwidth, ← hflags]
      exact ⟨_, congrArg (chr '%' :: ·) consumed, .inr ⟨flags, widthPart, precisionPart, lengthPart,
        conv, rfl, isFlags, isWidth, isPrecision, isLength, isConv⟩⟩

theorem IsSpecification.ne_nil {piece : List Byte} {next : Byte} (spec : IsSpecification piece next) :
    piece ≠ [] := by
  obtain ⟨flags, width, precision, length, conv, rfl, -⟩ := spec
  exact List.cons_ne_nil _ _

/-- Every turn shortens the format. -/
theorem nextDirective_length {d : Directive} (more : cur.peek ≠ 0)
    (done : nextDirective int cur = .ok (d, cur')) : cur'.format.length < cur.format.length := by
  obtain ⟨piece, consumed, shape⟩ := nextDirective_consumes more done
  have nonempty : piece ≠ [] := by
    obtain ⟨c, -, rfl, -⟩ | spec := shape
    · exact List.cons_ne_nil _ _
    · exact spec.ne_nil
  rw [consumed, List.length_append]
  exact Nat.lt_add_of_pos_left (List.length_pos_iff.mpr nonempty)

end

/-! ### Parsing in `int` and in unbounded integers -/

/-- The width and the precision are values of an `int`. -/
def FmtSpec.InRange (spec : FmtSpec) : Prop := spec.width ≤ intMax ∧ spec.precision ≤ intMax

instance (spec : FmtSpec) : Decidable spec.InRange := inferInstanceAs (Decidable (_ ∧ _))

/-- A numeral only grows, so that its last value tells whether all of them were in range. -/
theorem parseNumber_checked (format : List Byte) : ∀ {n : Int}, 0 ≤ n →
    ∃ m rest, parseNumber .ok n format = .ok (m, rest) ∧ n ≤ m ∧ (n ≤ intMax →
      parseNumber checkInt n format = if m ≤ intMax then .ok (m, rest) else .error .overflow) := by
  induction format with
  | nil => exact fun {n} _ => ⟨n, [], rfl, le_refl n, fun small => (if_pos small).symm⟩
  | cons c format ih =>
    intro n nonneg
    unfold parseNumber
    by_cases digit : 48 ≤ c.toNat ∧ c.toNat ≤ 57
    · rw [if_pos digit, if_pos digit]
      have grows : 0 ≤ n * 10 + ((c.toNat : Int) - 48) := by omega
      obtain ⟨m, rest, ideal, le, checked⟩ := ih grows
      refine ⟨m, rest, ideal, by omega, fun small => ?_⟩
      by_cases tens : n * 10 ≤ intMax
      · rw [checkInt_of_le (by omega) tens, ok_bind]
        by_cases sum : n * 10 + ((c.toNat : Int) - 48) ≤ intMax
        · rw [checkInt_of_le grows sum, ok_bind, checked sum]
        · rw [checkInt_of_lt (by omega), if_neg (by omega)]
          rfl
      · rw [checkInt_of_lt (by omega), if_neg (by omega)]
        rfl
    · rw [if_neg digit, if_neg digit]
      exact ⟨n, c :: format, rfl, le_refl n, fun small => (if_pos small).symm⟩

theorem vaInt_bounds (arg : Word) : -2 ^ 31 ≤ vaInt arg ∧ vaInt arg ≤ intMax := by
  have low := BitVec.le_toInt (arg.setWidth 32)
  have high := BitVec.toInt_lt (x := arg.setWidth 32)
  unfold vaInt intMax
  omega

theorem parseWidth_checked (spec : FmtSpec) (cur : FmtCursor) :
    ∃ spec' cur', parseWidth .ok spec cur = .ok (spec', cur') ∧ spec'.precision = spec.precision ∧
      parseWidth checkInt spec cur =
        if spec'.width ≤ intMax then .ok (spec', cur') else .error .overflow := by
  obtain ⟨low, high⟩ := vaInt_bounds cur.arg
  unfold parseWidth
  split
  · dsimp only
    split
    · refine ⟨_, _, rfl, rfl, ?_⟩
      dsimp only
      split <;> rename_i small
      · rw [checkInt_of_le (by omega) small, ok_bind]
      · rw [checkInt_of_lt (by omega)]
        rfl
    · exact ⟨_, _, rfl, rfl, (if_pos high).symm⟩
  · obtain ⟨m, rest, ideal, nonneg, checked⟩ := parseNumber_checked cur.format (le_refl 0)
    rw [ideal, checked (by decide)]
    refine ⟨_, _, rfl, rfl, ?_⟩
    dsimp only
    by_cases small : m ≤ intMax
    · rw [if_pos small, if_pos (by split <;> unfold intMax at * <;> omega)]
      rfl
    · rw [if_neg small, if_neg (by rw [if_neg] <;> unfold intMax at * <;> omega)]
      rfl

theorem parsePrecision_checked {spec : FmtSpec} (unspecified : spec.precision = -1)
    (cur : FmtCursor) :
    ∃ spec' cur', parsePrecision .ok spec cur = .ok (spec', cur') ∧ spec'.width = spec.width ∧
      parsePrecision checkInt spec cur =
        if spec'.precision ≤ intMax then .ok (spec', cur') else .error .overflow := by
  unfold parsePrecision
  split
  · dsimp only
    split
    · refine ⟨_, _, rfl, rfl, (if_pos ?_).symm⟩
      obtain ⟨-, high⟩ := vaInt_bounds cur.next.arg
      dsimp only
      split
      · decide
      · exact high
    · obtain ⟨m, rest, ideal, -, checked⟩ := parseNumber_checked cur.next.format (le_refl 0)
      rw [ideal, checked (by decide)]
      refine ⟨_, _, rfl, rfl, ?_⟩
      dsimp only
      split <;> rfl
  · exact ⟨_, _, rfl, rfl, (if_pos (by rw [unspecified]; decide)).symm⟩

theorem parseLength_inRange (spec : FmtSpec) (cur : FmtCursor) :
    (parseLength spec cur).1.InRange ↔ spec.InRange := by
  unfold parseLength
  split <;> rfl

theorem convert_inRange (spec : FmtSpec) (cur : FmtCursor) :
    (convert spec cur).1.1.InRange ↔ spec.InRange := by
  unfold convert
  cases specifier cur.peek with
  | pointer =>
    unfold FmtSpec.InRange intMax
    dsimp only
    split <;> omega
  | _ => rfl

theorem parseSpec_checked (cur : FmtCursor) :
    ∃ spec cur', parseSpec .ok cur = .ok (spec, cur') ∧
      parseSpec checkInt cur = if spec.InRange then .ok (spec, cur') else .error .overflow := by
  unfold parseSpec
  dsimp only
  obtain ⟨spec₁, cur₁, ideal₁, unspecified, checked₁⟩ :=
    parseWidth_checked { flags := (parseFlags {} cur.format).1 }
      { cur with format := (parseFlags {} cur.format).2 }
  obtain ⟨spec₂, cur₂, ideal₂, same, checked₂⟩ := parsePrecision_checked unspecified cur₁
  rw [ideal₁, ok_bind]
  dsimp only
  rw [ideal₂, ok_bind, checked₁]
  refine ⟨(parseLength spec₂ cur₂).1, (parseLength spec₂ cur₂).2, rfl, ?_⟩
  have inRange : (parseLength spec₂ cur₂).1.InRange ↔
      spec₁.width ≤ intMax ∧ spec₂.precision ≤ intMax :=
    (parseLength_inRange spec₂ cur₂).trans (by rw [FmtSpec.InRange, same])
  by_cases width : spec₁.width ≤ intMax
  · rw [if_pos width, ok_bind]
    dsimp only
    rw [checked₂]
    by_cases precision : spec₂.precision ≤ intMax
    · rw [if_pos precision, if_pos (inRange.mpr ⟨width, precision⟩)]
      rfl
    · rw [if_neg precision, if_neg fun both => precision (inRange.mp both).2]
      rfl
  · rw [if_neg width, if_neg fun both => width (inRange.mp both).1]
    rfl

def Directive.InRange : Directive → Prop
  | .literal _ => True
  | .conv spec _ => spec.InRange

instance : (d : Directive) → Decidable d.InRange
  | .literal _ => inferInstanceAs (Decidable True)
  | .conv spec _ => inferInstanceAs (Decidable spec.InRange)

/-- **Parsing in `int` arithmetic** agrees with parsing in unbounded integers, up to a directive
whose width or precision is no `int`. -/
theorem nextDirective_checked (cur : FmtCursor) :
    ∃ d cur', nextDirective .ok cur = .ok (d, cur') ∧
      nextDirective checkInt cur = if d.InRange then .ok (d, cur') else .error .overflow := by
  unfold nextDirective
  split
  · exact ⟨_, _, rfl, (if_pos trivial).symm⟩
  · split
    · exact ⟨_, _, rfl, (if_pos trivial).symm⟩
    · obtain ⟨spec, after, ideal, checked⟩ := parseSpec_checked cur.next
      let d : Directive := .conv (convert spec after).1.1 (convert spec after).1.2
      have inRange : d.InRange ↔ spec.InRange := convert_inRange spec after
      rw [ideal, checked, ok_bind]
      refine ⟨d, if after.peek ≠ 0 then (convert spec after).2.next else (convert spec after).2,
        rfl, ?_⟩
      by_cases small : spec.InRange
      · rw [if_pos small, if_pos (inRange.mpr small)]
        rfl
      · rw [if_neg small, if_neg fun converted => small (inRange.mp converted)]
        rfl

/-! ### The loop -/

section

variable (int : Int → Except Fault Int) (render : Directive → Except Fault (List Byte))

/-- The loop of both interpreters: the directives reached, each with what `render` leaves in `buf`,
and the fault that stops it, if any. -/
def formatLoop (cur : FmtCursor) : List (Directive × List Byte) × Option Fault :=
  if _more : cur.peek ≠ 0 then
    match _parsed : nextDirective int cur with
    | .error fault => ([], some fault)
    | .ok (d, after) =>
      match render d with
      | .error fault => ([], some fault)
      | .ok buf =>
        let (reached, fault) := formatLoop after
        ((d, buf) :: reached, fault)
  else ([], none)
termination_by cur.format.length
decreasing_by exact nextDirective_length _more _parsed

end

section

variable {int : Int → Except Fault Int} {render : Directive → Except Fault (List Byte)}
  {cur after : FmtCursor} {d : Directive} {fault : Fault} {buf : List Byte}

theorem formatLoop_end (done : cur.peek = 0) : formatLoop int render cur = ([], none) := by
  rw [formatLoop, dif_neg fun more => more done]

theorem formatLoop_error (more : cur.peek ≠ 0) (parsed : nextDirective int cur = .error fault) :
    formatLoop int render cur = ([], some fault) := by
  rw [formatLoop, dif_pos more]
  split <;> rename_i other
  · rw [Except.error.inj (other.symm.trans parsed)]
  · cases other.symm.trans parsed

theorem formatLoop_ok (more : cur.peek ≠ 0) (parsed : nextDirective int cur = .ok (d, after)) :
    formatLoop int render cur =
      match render d with
      | .error fault => ([], some fault)
      | .ok buf =>
        ((d, buf) :: (formatLoop int render after).1, (formatLoop int render after).2) := by
  rw [formatLoop, dif_pos more]
  split <;> rename_i other
  · cases other.symm.trans parsed
  · obtain ⟨rfl, rfl⟩ := Prod.mk.inj (Except.ok.inj (other.symm.trans parsed))
    rfl

/-- Induction on the rest of the format. -/
theorem FmtCursor.rest_induction {P : FmtCursor → Prop} (done : ∀ cur, cur.peek = 0 → P cur)
    (turn : ∀ cur, cur.peek ≠ 0 →
      (∀ cur', cur'.format.length < cur.format.length → P cur') → P cur) (cur : FmtCursor) :
    P cur := by
  induction length : cur.format.length using Nat.strong_induction_on generalizing cur with
  | _ n ih =>
    by_cases more : cur.peek = 0
    · exact done cur more
    · exact turn cur more fun cur' shorter => ih _ (length ▸ shorter) cur' rfl

end

end ShipOS
