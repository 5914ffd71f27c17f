/-
**The lines on a serial port.**

Over any run of functions with critical sections: what a port is sent is the concatenation of the
lines that were started on it, in the order in which they were started, and only the last one can be
under way (`Sent`). Between two characters of a line the other CPUs do what they like; no other line
of the port comes in between, and no interrupt of the CPU that sends it.

* `SectionInv.sender_unique` — the lock of a port lets one CPU send;
* `Sent.step`, `Sent.run` — one step, and a whole run.
-/

import ShipOS.Sync.Sections

namespace ShipOS

open ByteMem Runs

variable {Lk P C Fn : Type*} {k k' : Kernel C Lk P} {c : C} {p : P} {first : List Byte}
  {lines : List (List Byte)}

/-- What a port has been sent, where `lines` have been started since it had been sent `first`: all of
them, but for the end of the last one while a CPU is sending it. -/
def Sent (k : Kernel C Lk P) (p : P) (first : List Byte) (lines : List (List Byte)) : Prop :=
  (∀ c text, (k.tasks c).active.line ≠ some (p, text)) ∧ k.wire p = first ++ lines.flatten ∨
    ∃ c rest before sent, (k.tasks c).active.line = some (p, rest) ∧
      lines = before ++ [sent ++ rest] ∧ k.wire p = first ++ before.flatten ++ sent

/-- No CPU starts a line on the port, ends one or goes on with one. -/
theorem Sent.same (sent : Sent k p first lines)
    (line : ∀ x text, (k'.tasks x).active.line = some (p, text) ↔
      (k.tasks x).active.line = some (p, text)) (wire : k'.wire p = k.wire p) :
    Sent k' p first (lines ++ []) := by
  rw [List.append_nil]
  rcases sent with ⟨quiet, all⟩ | ⟨c, rest, before, begun, sending, split, all⟩
  · exact .inl ⟨fun x text now => quiet x text ((line x text).mp now), wire.trans all⟩
  · exact .inr ⟨c, rest, before, begun, (line c rest).mpr sending, split, wire.trans all⟩

section Machine

variable [DecidableEq Lk] {d : Discipline Lk P}

/-- **One CPU at most sends to a port.** -/
theorem SectionInv.sender_unique (inv : SectionInv d k) {x y : C} {text text' : List Byte}
    (first : (k.tasks x).active.line = some (p, text))
    (second : (k.tasks y).active.line = some (p, text')) : x = y :=
  inv.locks.unique x y (d.guard p) ((inv.placed x).active.line p text first).2
    ((inv.placed y).active.line p text' second).2

/-- With interrupts enabled the CPU sends nothing. -/
theorem SectionInv.enabled_silent (inv : SectionInv d k)
    (enabled : (k.smp.cpus c).flags.ifl = true) : (k.tasks c).active.line = none := by
  refine Option.eq_none_iff_forall_ne_some.mpr fun ⟨q, text⟩ sending => ?_
  have guarded := ((inv.placed c).active.line q text sending).2
  rw [((inv.locks.cpu c).alone enabled).2] at guarded
  cases guarded

/-- A function that an interrupt has suspended sends nothing. -/
theorem SectionInv.suspended_silent (inv : SectionInv d k) {task : Task Lk P}
    {rest : List (Task Lk P)} (below : (k.tasks c).suspended = task :: rest) :
    task.line = none := by
  have suspended := (inv.placed c).suspended
  rw [below] at suspended
  obtain ⟨frame, frames, placed, -, under⟩ := List.forall₂_cons_right_iff.mp suspended
  refine Option.eq_none_iff_forall_ne_some.mpr fun ⟨q, text⟩ sending => ?_
  have guarded := (placed.line q text sending).2
  rw [((inv.locks.cpu c).paused frame (under ▸ List.mem_cons_self)).holds] at guarded
  cases guarded

variable [DecidableEq C]

omit [DecidableEq Lk] in
/-- CPU `c` gets other functions, with the same rest of a line on the port. -/
theorem line_update {tasks : C → Tasks Lk P} {new : Tasks Lk P} {text : List Byte}
    (same : new.active.line = some (p, text) ↔ (tasks c).active.line = some (p, text)) (x : C) :
    (Function.update tasks c new x).active.line = some (p, text) ↔
      (tasks x).active.line = some (p, text) := by
  by_cases own : x = c
  · rw [own, Function.update_self, same]
  · rw [Function.update_of_ne own]

omit [DecidableEq Lk] in
/-- A port of which CPU `c` sends nothing, before and after. -/
theorem Sent.elsewhere (sent : Sent k p first lines) {task : Task Lk P} {wire : P → List Byte}
    (before : ∀ text, (k.tasks c).active.line ≠ some (p, text))
    (after : ∀ text, task.line ≠ some (p, text)) (kept : wire p = k.wire p) :
    Sent { k.go c task with wire := wire } p first (lines ++ []) :=
  sent.same (fun x text => line_update (iff_of_false (after text) (before text)) x) kept

/-- A line is started. -/
theorem Sent.start (inv : SectionInv d k) (sent : Sent k p first lines) {text : List Byte}
    {rest : List (Stmt Lk P)} (here : (k.tasks c).active = ⟨none, .line p text :: rest⟩)
    (ready : (k.smp.cpus c).active.code = []) :
    Sent (k.go c ⟨some (p, text), rest⟩) p first (lines ++ [text]) := by
  have nested := (inv.placed c).active.nested
  rw [here, settled, ready] at nested
  rcases sent with ⟨-, all⟩ | ⟨x, unsent, before, begun, sending, split, all⟩
  · refine .inr ⟨c, text, lines, [], ?_, rfl, all.trans (List.append_nil _).symm⟩
    show (Function.update k.tasks c _ c).active.line = _
    rw [Function.update_self]
  · -- Another sender would have the lock of the port as well.
    have guarded := ((inv.placed x).active.line p unsent sending).2
    obtain rfl := inv.locks.unique x c (d.guard p) guarded nested.1
    rw [here] at sending
    cases sending

/-- A character is sent. -/
theorem Sent.send [DecidableEq P] (inv : SectionInv d k) (sent : Sent k p first lines)
    {b : Byte} {text : List Byte} {rest : List (Stmt Lk P)}
    (here : (k.tasks c).active = ⟨some (p, b :: text), rest⟩) :
    Sent { k.go c ⟨some (p, text), rest⟩ with
      wire := Function.update k.wire p (k.wire p ++ [b]) } p first (lines ++ []) := by
  have own : (k.tasks c).active.line = some (p, b :: text) := by rw [here]
  rcases sent with ⟨quiet, -⟩ | ⟨x, unsent, before, begun, sending, split, all⟩
  · exact absurd own (quiet c _)
  · obtain rfl := inv.sender_unique sending own
    cases sending.symm.trans own
    refine .inr ⟨x, text, before, begun ++ [b], ?_, ?_, ?_⟩
    · show (Function.update k.tasks x _ x).active.line = _
      rw [Function.update_self]
    · rw [List.append_nil, split, List.append_assoc, List.singleton_append]
    · show Function.update k.wire p _ p = _
      rw [Function.update_self, all, List.append_assoc, List.append_assoc]

/-- A line is at its end. -/
theorem Sent.sent (inv : SectionInv d k) (sent : Sent k p first lines)
    {rest : List (Stmt Lk P)} (here : (k.tasks c).active = ⟨some (p, []), rest⟩) :
    Sent (k.go c ⟨none, rest⟩) p first (lines ++ []) := by
  have own : (k.tasks c).active.line = some (p, []) := by rw [here]
  rcases sent with ⟨quiet, -⟩ | ⟨x, unsent, before, begun, sending, split, all⟩
  · exact absurd own (quiet c _)
  · obtain rfl := inv.sender_unique sending own
    cases sending.symm.trans own
    refine .inl ⟨fun y text now => ?_, ?_⟩
    · have old : (Function.update k.tasks x _ y).active.line = some (p, text) := now
      by_cases same : y = x
      · rw [same, Function.update_self] at old
        cases old
      · rw [Function.update_of_ne same] at old
        exact same (inv.sender_unique old own)
    · show k.wire p = _
      rw [all, split]
      simp

variable [DecidableEq P] {script : Fn → List (Stmt Lk P)}

/-- The line that a step starts on a port. -/
def SectionEvent.line (p : P) : SectionEvent C Fn P → List (List Byte)
  | .start _ port text => if port = p then [text] else []
  | _ => []

/-- The lines that a run starts on a port. -/
def linesOn (p : P) (es : List (SectionEvent C Fn P)) : List (List Byte) :=
  es.flatMap fun e => e.line p

/-- **A step.** -/
theorem Sent.step {event : SectionEvent C Fn P} (inv : SectionInv d k)
    (sent : Sent k p first lines) (step : SectionStep script k event k') :
    Sent k' p first (lines ++ event.line p) := by
  cases step with
  | enter ready finished => exact sent.same (fun x text => line_update (by rw [finished]) x) rfl
  | acquire here called | release here called =>
    exact sent.same (fun x text => line_update (by rw [here]) x) rfl
  | op moved | setIf moved => exact sent.same (fun x text => Iff.rfl) rfl
  | @start c port text rest here ready =>
    by_cases same : port = p
    · subst same
      rw [SectionEvent.line, if_pos rfl]
      exact Sent.start inv sent here ready
    · rw [SectionEvent.line, if_neg same]
      refine sent.elsewhere (fun line now => ?_) (fun line now => ?_) rfl
      · rw [here] at now
        cases now
      · exact same (congrArg Prod.fst (Option.some.inj now))
  | @send c port b text rest here =>
    by_cases same : port = p
    · subst same
      exact Sent.send inv sent here
    · refine sent.elsewhere (fun line now => ?_) (fun line now => ?_)
        (Function.update_of_ne (Ne.symm same) ..)
      · rw [here] at now
        exact same (congrArg Prod.fst (Option.some.inj now))
      · exact same (congrArg Prod.fst (Option.some.inj now))
  | @sent c port rest here =>
    by_cases same : port = p
    · subst same
      exact Sent.sent inv sent here
    · refine sent.elsewhere (fun line now => ?_) (fun line now => ?_) rfl
      · rw [here] at now
        exact same (congrArg Prod.fst (Option.some.inj now))
      · cases now
  | @interrupt c fn smp taken =>
    have silent : (k.tasks c).active.line = none := by
      cases taken with
      | interrupt enabled => exact inv.enabled_silent enabled
    exact sent.same (fun x text => line_update (by rw [silent]) x) rfl
  | iret finished below returned =>
    have silent := inv.suspended_silent below
    exact sent.same (fun x text => line_update (by rw [silent, finished]) x) rfl

/-- Only lines of the scripts are started. -/
theorem SectionInv.allowed {event : SectionEvent C Fn P} (inv : SectionInv d k)
    (step : SectionStep script k event k') : ∀ text ∈ event.line p, d.allows p text := by
  cases step with
  | @start c port text rest here ready =>
    intro line member
    have nested := (inv.placed c).active.nested
    rw [here] at nested
    rw [SectionEvent.line] at member
    split at member
    case isTrue same =>
      rw [List.mem_singleton.mp member, ← same]
      exact nested.2.1
    case isFalse => cases member
  | enter | acquire | release | op | send | sent | interrupt | iret | setIf =>
    exact List.forall_mem_nil _

/-- **A run.** -/
theorem Sent.run [Fintype Lk] (few : Fintype.card Lk + 1 < 2 ^ 31)
    (scripts : ∀ fn, Nested d [] (script fn)) {es : List (SectionEvent C Fn P)}
    (run : Run (SectionStep script) k es k') :
    ∀ {lines : List (List Byte)}, SectionInv d k → Sent k p first lines →
      Sent k' p first (lines ++ linesOn p es) ∧ ∀ text ∈ linesOn p es, d.allows p text := by
  induction run with
  | nil k =>
    intro lines _ sent
    rw [linesOn, List.flatMap_nil, List.append_nil]
    exact ⟨sent, List.forall_mem_nil _⟩
  | cons here _ ih =>
    intro lines inv sent
    obtain ⟨whole, allowed⟩ := ih (inv.step few scripts here) (Sent.step inv sent here)
    rw [linesOn, List.flatMap_cons, ← List.append_assoc]
    exact ⟨whole, List.forall_mem_append.mpr ⟨inv.allowed here, allowed⟩⟩

end Machine

end ShipOS
