/-
**Byte-addressed memory.**

A memory is a total function from 64-bit addresses to bytes; addresses wrap around at `2 ^ 64`. Two
ranges that do not meet are `Apart`.

* `load64_store64_apart`, `load64_fill_apart`, … — an access does not see a write to a range apart;
* `Words`, `Dwords` — words one after another, as on a stack;
* `readLE_storeFields` — records that are stored field by field;
* `copyUp_eq_iff`, `copyUp_repeats` — bytes copied forward, into a range that may overlap.
-/

import Mathlib.Algebra.Order.Ring.Nat
import Mathlib.Logic.Function.Basic
import Mathlib.Tactic.Common

/-! ## Little-endian words

* `readLE`, `writeLE` — `n` bytes at an address, as a natural number, lowest byte first;
* `load64` / `store64` and `load32` / `store32` — the two word widths the code uses;
* `fill` — a constant byte over a range.

Words at different multiples of eight are always apart (`apart_of_aligned`), which is the form
page-sized objects use. -/

namespace ByteMem

/-- A 64-bit machine word; addresses are words. -/
abbrev Word := BitVec 64

abbrev Byte := BitVec 8

abbrev Mem := Word → Byte

/-! ### Ranges -/

theorem add_offset (a x : Word) : a + BitVec.ofNat 64 (x - a).toNat = x := by
  rw [BitVec.ofNat_toNat, BitVec.setWidth_eq, BitVec.add_comm, BitVec.sub_add_cancel]

theorem offset_add (a : Word) {i : Nat} (small : i < 2 ^ 64) :
    (a + BitVec.ofNat 64 i - a).toNat = i := by
  rw [BitVec.add_comm, BitVec.add_sub_cancel, BitVec.toNat_ofNat, Nat.mod_eq_of_lt small]

/-- The ranges `[a, a + n)` and `[b, b + k)` do not meet, addresses taken modulo `2 ^ 64`. -/
def Apart (a : Word) (n : Nat) (b : Word) (k : Nat) : Prop :=
  n ≤ (b - a).toNat ∧ k ≤ (a - b).toNat

theorem Apart.symm {a b : Word} {n k : Nat} (apart : Apart a n b k) : Apart b k a n :=
  ⟨apart.2, apart.1⟩

theorem Apart.mono {a b : Word} {n k n' k' : Nat} (apart : Apart a n b k) (left : n' ≤ n)
    (right : k' ≤ k) : Apart a n' b k' :=
  ⟨le_trans left apart.1, le_trans right apart.2⟩

/-- Two different words at multiples of eight are apart. -/
theorem apart_of_aligned {a b : Word} (alignedA : a.toNat % 8 = 0) (alignedB : b.toNat % 8 = 0)
    (different : a ≠ b) : Apart a 8 b 8 := by
  have ne : a.toNat ≠ b.toNat := fun same => different (BitVec.eq_of_toNat_eq same)
  constructor <;> bv_omega

/-- A byte of a range is outside every range apart from it. -/
theorem Apart.outside {a b : Word} {n k : Nat} (apart : Apart a n b k) {i : Nat} (inside : i < k) :
    ¬ (b + BitVec.ofNat 64 i - a).toNat < n := by
  obtain ⟨left, right⟩ := apart
  have same : (b + BitVec.ofNat 64 i - a).toNat = ((b - a).toNat + i) % 2 ^ 64 := by
    rw [show b + BitVec.ofNat 64 i - a = (b - a) + BitVec.ofNat 64 i by bv_omega,
      BitVec.toNat_add, BitVec.toNat_ofNat, Nat.add_mod_mod]
  have bound : (b - a).toNat + i < 2 ^ 64 := by
    by_cases zero : b - a = 0
    · have equal : a - b = 0 := by
        bv_omega
      rw [equal] at right
      simp at right
      omega
    · have neg : (a - b).toNat = 2 ^ 64 - (b - a).toNat := by
        have : (b - a).toNat ≠ 0 := fun h => zero (BitVec.eq_of_toNat_eq h)
        bv_omega
      omega
  rw [same, Nat.mod_eq_of_lt bound]
  omega

/-! ### Little-endian access -/

/-- The `n` bytes at `a`, lowest first. -/
def readLE (m : Mem) (a : Word) : Nat → Nat
  | 0 => 0
  | n + 1 => (m a).toNat + 256 * readLE m (a + 1) n

/-- `m` with the `n` low bytes of `v` at `a`. -/
def writeLE (m : Mem) (a : Word) (n v : Nat) : Mem := fun x =>
  if (x - a).toNat < n then BitVec.ofNat 8 (v / 256 ^ (x - a).toNat) else m x

/-- `m` with the byte `v` in `[a, a + n)`. -/
def fill (m : Mem) (a : Word) (v : Byte) (n : Nat) : Mem := fun x =>
  if (x - a).toNat < n then v else m x

theorem readLE_congr {m m' : Mem} {n : Nat} : ∀ {a : Word},
    (∀ i < n, m (a + BitVec.ofNat 64 i) = m' (a + BitVec.ofNat 64 i)) →
      readLE m a n = readLE m' a n := by
  induction n with
  | zero => exact fun _ => rfl
  | succ n ih =>
    intro a same
    have head : m a = m' a := by simpa using same 0 (Nat.succ_pos n)
    have tail : readLE m (a + 1) n = readLE m' (a + 1) n := ih fun i hi => by
      have next := same (i + 1) (Nat.succ_lt_succ hi)
      rwa [show a + BitVec.ofNat 64 (i + 1) = a + 1 + BitVec.ofNat 64 i by
        bv_omega] at next
    simp only [readLE, head, tail]

/-- A read that starts inside a constant number of written bytes sees the higher digits. -/
theorem readLE_writeLE_from (m : Mem) (a : Word) (v n : Nat) (small : n ≤ 2 ^ 64) :
    ∀ k i, i + k = n → readLE (writeLE m a n v) (a + BitVec.ofNat 64 i) k = v / 256 ^ i % 256 ^ k := by
  intro k
  induction k with
  | zero =>
    intro i _
    simp [readLE, Nat.mod_one]
  | succ k ih =>
    intro i total
    have here : writeLE m a n v (a + BitVec.ofNat 64 i) = BitVec.ofNat 8 (v / 256 ^ i) := by
      rw [writeLE, offset_add a (by omega), if_pos (by omega)]
    have next := ih (i + 1) (by omega)
    rw [show a + BitVec.ofNat 64 (i + 1) = a + BitVec.ofNat 64 i + 1 by
      bv_omega] at next
    rw [readLE, here, next, BitVec.toNat_ofNat, Nat.pow_succ 256 i, ← Nat.div_div_eq_div_mul,
      Nat.pow_succ 256 k, Nat.mul_comm (256 ^ k) 256, Nat.mod_mul]

theorem readLE_writeLE_self (m : Mem) (a : Word) (v n : Nat) (small : n ≤ 2 ^ 64) :
    readLE (writeLE m a n v) a n = v % 256 ^ n := by
  have whole := readLE_writeLE_from m a v n small n 0 (by omega)
  simpa using whole

theorem readLE_writeLE_apart (m : Mem) {a b : Word} {n k : Nat} (v : Nat) (apart : Apart a n b k) :
    readLE (writeLE m a n v) b k = readLE m b k :=
  readLE_congr fun _ hi => if_neg (apart.outside hi)

theorem readLE_fill_apart (m : Mem) {a b : Word} {n k : Nat} (v : Byte) (apart : Apart a n b k) :
    readLE (fill m a v n) b k = readLE m b k :=
  readLE_congr fun _ hi => if_neg (apart.outside hi)

/-! ### Machine words -/

def load64 (m : Mem) (a : Word) : Word := BitVec.ofNat 64 (readLE m a 8)

def store64 (m : Mem) (a v : Word) : Mem := writeLE m a 8 v.toNat

def load32 (m : Mem) (a : Word) : BitVec 32 := BitVec.ofNat 32 (readLE m a 4)

def store32 (m : Mem) (a : Word) (v : BitVec 32) : Mem := writeLE m a 4 v.toNat

@[simp] theorem load64_store64_self (m : Mem) (a v : Word) : load64 (store64 m a v) a = v := by
  apply BitVec.eq_of_toNat_eq
  rw [load64, store64, readLE_writeLE_self m a v.toNat 8 (by omega), BitVec.toNat_ofNat]
  have := v.isLt
  omega

@[simp] theorem load32_store32_self (m : Mem) (a : Word) (v : BitVec 32) :
    load32 (store32 m a v) a = v := by
  apply BitVec.eq_of_toNat_eq
  rw [load32, store32, readLE_writeLE_self m a v.toNat 4 (by omega), BitVec.toNat_ofNat]
  have := v.isLt
  omega

theorem load64_store64_apart (m : Mem) {a b : Word} (v : Word) (apart : Apart a 8 b 8) :
    load64 (store64 m a v) b = load64 m b :=
  congrArg (BitVec.ofNat 64) (readLE_writeLE_apart m v.toNat apart)

theorem load32_store32_apart (m : Mem) {a b : Word} (v : BitVec 32) (apart : Apart a 4 b 4) :
    load32 (store32 m a v) b = load32 m b :=
  congrArg (BitVec.ofNat 32) (readLE_writeLE_apart m v.toNat apart)

theorem load64_fill_apart (m : Mem) {a b : Word} {n : Nat} (v : Byte) (apart : Apart a n b 8) :
    load64 (fill m a v n) b = load64 m b :=
  congrArg (BitVec.ofNat 64) (readLE_fill_apart m v apart)

/-- A word inside a filled range. -/
theorem load64_fill (m : Mem) {a b : Word} (v : Byte) {n : Nat} (inside : (b - a).toNat + 8 ≤ n)
    (small : n ≤ 2 ^ 64) : load64 (fill m a v n) b = load64 (fun _ => v) b := by
  refine congrArg (BitVec.ofNat 64) (readLE_congr fun i hi => if_pos ?_)
  have offset : b + BitVec.ofNat 64 i - a = (b - a) + BitVec.ofNat 64 i := by bv_omega
  rw [offset, BitVec.toNat_add, BitVec.toNat_ofNat]
  omega

/-- A word inside a zeroed range is zero. -/
theorem load64_fill_zero (m : Mem) {a b : Word} {n : Nat} (inside : (b - a).toNat + 8 ≤ n)
    (small : n ≤ 2 ^ 64) : load64 (fill m a 0 n) b = 0 := by
  rw [load64_fill m 0 inside small]
  simp [load64, readLE]

end ByteMem

/-! ## Words one after another in memory

`Words m p ws`: the words `ws` are in memory from `p` upwards, as on a stack that grows downwards or
in a structure of words.

* `Words.push` — a word stored below the others;
* `words_append`, `Words.set`, `words_zero` — parts, one word changed, a cleared range;
* `Words.congr`, `SameOutside` — what a change of other bytes leaves alone;
* `Dwords m p n f` — the same for `n` 32-bit words, as a function of their index: a store updates it
  (`Dwords.store`), and two of them make a word (`load64_dwords`). -/

namespace ByteMem

variable {m m' m'' : Mem} {p a b w : Word} {ws us : List Word} {n k : Nat}

/-- The address is in `[a, a + n)`. -/
def Within (a : Word) (n : Nat) (x : Word) : Prop := (x - a).toNat < n

/-- The memories agree outside `[a, a + n)`. -/
def SameOutside (a : Word) (n : Nat) (m m' : Mem) : Prop := ∀ x, ¬ Within a n x → m' x = m x

/-- The memories agree on `[a, a + n)`. -/
def SameOn (a : Word) (n : Nat) (m m' : Mem) : Prop := ∀ x, Within a n x → m' x = m x

theorem sameOutside_store64 (m : Mem) (a v : Word) : SameOutside a 8 m (store64 m a v) :=
  fun _ outside => if_neg outside

/-- A byte of a range is not in a range apart from it. -/
theorem Apart.not_within {x : Word} (apart : Apart a n b k) (inside : Within b k x) :
    ¬ Within a n x := by
  have outside := apart.outside inside
  rwa [add_offset] at outside

/-- A part of a range is apart from what the range is apart from. -/
theorem Apart.part {a' : Word} {n' : Nat} (apart : Apart a n b k)
    (inside : (a' - a).toNat + n' ≤ n) (positive : 0 < n') : Apart a' n' b k := by
  obtain ⟨left, right⟩ := apart
  constructor <;> bv_omega

theorem SameOutside.sameOn (same : SameOutside a n m m') (apart : Apart a n b k) :
    SameOn b k m m' :=
  fun x inside => same x (apart.not_within inside)

theorem SameOn.trans (first : SameOn a n m m') (second : SameOn a n m' m'') : SameOn a n m m'' :=
  fun x inside => (second x inside).trans (first x inside)

/-- A part of a range. -/
theorem SameOn.mono (same : SameOn a n m m') (inside : (b - a).toNat + k ≤ n) :
    SameOn b k m m' := by
  intro x within
  refine same x ?_
  unfold Within at *
  bv_omega

theorem SameOn.load64 (same : SameOn a 8 m m') : load64 m' a = load64 m a := by
  refine congrArg (BitVec.ofNat 64) (readLE_congr fun i hi => same _ ?_)
  unfold Within
  bv_omega

theorem SameOn.readLE (same : SameOn a n m m') (small : n ≤ 2 ^ 64) :
    readLE m' a n = readLE m a n := by
  refine readLE_congr fun i hi => same _ ?_
  unfold Within
  bv_omega

/-! ### Words -/

/-- The words `ws`, from `p` upwards. -/
def Words (m : Mem) : Word → List Word → Prop
  | _, [] => True
  | p, w :: ws => load64 m p = w ∧ Words m (p + 8) ws

theorem Words.congr : ∀ {ws : List Word} {p : Word}, Words m p ws →
    SameOn p (8 * ws.length) m m' → Words m' p ws := by
  intro ws
  induction ws with
  | nil => exact fun _ _ => trivial
  | cons w ws ih =>
    intro p ⟨head, tail⟩ same
    rw [List.length_cons] at same
    have offset : (p + 8 - p).toNat = 8 := by bv_omega
    refine ⟨?_, ih tail (same.mono (by omega))⟩
    rw [(same.mono (b := p) (by simp)).load64, head]

/-- **A word stored below the others.** -/
theorem Words.push (words : Words m p ws) (small : 8 * ws.length + 8 ≤ 2 ^ 64) (w : Word) :
    Words (store64 m (p - 8) w) (p - 8) (w :: ws) := by
  have back : p - 8 + 8 = p := by bv_omega
  refine ⟨load64_store64_self _ _ _, ?_⟩
  rw [back]
  refine words.congr ((sameOutside_store64 m (p - 8) w).sameOn ?_)
  constructor <;> bv_omega

theorem words_append : ∀ {us : List Word} {p : Word},
    Words m p (us ++ ws) ↔ Words m p us ∧ Words m (p + BitVec.ofNat 64 (8 * us.length)) ws := by
  intro us
  induction us with
  | nil => simp [Words]
  | cons u us ih =>
    intro p
    have next : p + 8 + BitVec.ofNat 64 (8 * us.length) =
        p + BitVec.ofNat 64 (8 * (us.length + 1)) := by bv_omega
    rw [List.cons_append, Words, Words, ih, next, List.length_cons, and_assoc]

/-- A cleared range. -/
theorem words_zero (m : Mem) (a : Word) (n : Nat) (small : n ≤ 2 ^ 64) : ∀ (k : Nat) (p : Word),
    (p - a).toNat + 8 * k ≤ n → Words (fill m a 0 n) p (List.replicate k 0) := by
  intro k
  induction k with
  | zero => exact fun _ _ => trivial
  | succ k ih =>
    intro p inside
    refine ⟨load64_fill_zero m (by omega) small, ?_⟩
    by_cases last : k = 0
    · subst last
      trivial
    · exact ih (p + 8) (by bv_omega)

/-- One word changed. -/
theorem Words.set (v : Word) : ∀ {ws : List Word} {p : Word} {i : Nat}, Words m p ws →
    8 * ws.length ≤ 2 ^ 64 → i < ws.length →
      Words (store64 m (p + BitVec.ofNat 64 (8 * i)) v) p (ws.set i v) := by
  intro ws
  induction ws with
  | nil => exact fun _ _ hi => absurd hi (Nat.not_lt_zero _)
  | cons w ws ih =>
    intro p i ⟨head, tail⟩ small hi
    rw [List.length_cons] at small hi
    cases i with
    | zero =>
      have here : p + BitVec.ofNat 64 (8 * 0) = p := by simp
      rw [here]
      refine ⟨load64_store64_self _ _ _, tail.congr ((sameOutside_store64 m p v).sameOn ?_)⟩
      constructor <;> bv_omega
    | succ i =>
      have next : p + BitVec.ofNat 64 (8 * (i + 1)) = p + 8 + BitVec.ofNat 64 (8 * i) := by bv_omega
      rw [next]
      refine ⟨?_, ih tail (by omega) (by omega)⟩
      rw [load64_store64_apart, head]
      constructor <;> bv_omega

/-! ### 32-bit words -/

/-- The 32-bit words `f 0`, …, `f (n - 1)` from `p` upwards. -/
def Dwords (m : Mem) (p : Word) (n : Nat) (f : Nat → BitVec 32) : Prop :=
  ∀ k < n, load32 m (p + BitVec.ofNat 64 (4 * k)) = f k

/-- **A store updates one of them.** -/
theorem Dwords.store {f : Nat → BitVec 32} {j : Nat} (dwords : Dwords m p n f)
    (small : 4 * n ≤ 2 ^ 64) (hj : j < n) (v : BitVec 32) :
    Dwords (store32 m (p + BitVec.ofNat 64 (4 * j)) v) p n (Function.update f j v) := by
  intro k hk
  by_cases here : k = j
  · subst here
    rw [load32_store32_self, Function.update_self]
  · rw [Function.update_of_ne here, load32_store32_apart, dwords k hk]
    constructor <;> bv_omega

/-- A word is its two halves. -/
theorem load64_halves (m : Mem) (a : Word) :
    (load64 m a).toNat = (load32 m a).toNat + 2 ^ 32 * (load32 m (a + 4)).toNat := by
  have four : a + 1 + 1 + 1 + 1 = a + 4 := by bv_omega
  have byte : ∀ b, (m b).toNat < 256 := fun b => (m b).isLt
  have := byte a
  have := byte (a + 1)
  have := byte (a + 1 + 1)
  have := byte (a + 1 + 1 + 1)
  have := byte (a + 4)
  have := byte (a + 4 + 1)
  have := byte (a + 4 + 1 + 1)
  have := byte (a + 4 + 1 + 1 + 1)
  simp only [load64, load32, readLE, BitVec.toNat_ofNat, four]
  omega

theorem load64_dwords {f : Nat → BitVec 32} {k : Nat} (dwords : Dwords m p n f)
    (hk : k + 1 < n) (clear : f (k + 1) = 0) :
    load64 m (p + BitVec.ofNat 64 (4 * k)) = (f k).setWidth 64 := by
  have low := dwords k (by omega)
  have high := dwords (k + 1) hk
  have next : p + BitVec.ofNat 64 (4 * (k + 1)) = p + BitVec.ofNat 64 (4 * k) + 4 := by bv_omega
  have bound := (f k).isLt
  have zero : (0 : BitVec 32).toNat = 0 := rfl
  rw [next, clear] at high
  apply BitVec.eq_of_toNat_eq
  rw [load64_halves, low, high, BitVec.toNat_setWidth, zero]
  omega

end ByteMem

/-! ## The fields of a record in memory

A record is stored field by field, each at its offset from the base (`storeFields`). What is read back
depends on the fields that meet the range only:

* `readLE_storeFields_clear` — a range that no field meets keeps its bytes;
* `readLE_storeFields` — a field that no other one meets has its value;
* `storeFields_outside` — nothing outside the fields changes;
* `foldl_update_range` — an array that a loop fills. -/

namespace ByteMem

/-- The low `width` bytes of `value`, at `offset`. -/
structure Field where
  offset : Nat
  width : Nat
  value : Nat

def Field.store (base : Word) (m : Mem) (f : Field) : Mem :=
  writeLE m (base + BitVec.ofNat 64 f.offset) f.width f.value

/-- The fields one after the other. -/
def storeFields (m : Mem) (base : Word) (fs : List Field) : Mem := fs.foldl (Field.store base) m

/-- The field is inside the first `size` bytes, and does not meet `[x, x + n)`. -/
structure Field.Clear (f : Field) (size x n : Nat) : Prop where
  inside : f.offset + f.width ≤ size
  apart : f.offset + f.width ≤ x ∨ x + n ≤ f.offset

variable {m : Mem} {base : Word} {fs : List Field} {size x n : Nat}

/-- Offsets from one base that do not meet. -/
theorem apart_of_offsets (base : Word) {x n y k : Nat} (someX : 0 < n) (someY : 0 < k)
    (insideX : x + n ≤ 2 ^ 64) (insideY : y + k ≤ 2 ^ 64) (apart : x + n ≤ y ∨ y + k ≤ x) :
    Apart (base + BitVec.ofNat 64 x) n (base + BitVec.ofNat 64 y) k := by
  constructor <;> bv_omega

theorem readLE_store_clear (m : Mem) (base : Word) {f : Field} (small : size ≤ 2 ^ 64)
    (clear : f.Clear size x n) (inside : x + n ≤ size) :
    readLE (f.store base m) (base + BitVec.ofNat 64 x) n =
      readLE m (base + BitVec.ofNat 64 x) n := by
  obtain ⟨whole, apart⟩ := clear
  rcases Nat.eq_zero_or_pos n with rfl | someN
  · rfl
  · rcases Nat.eq_zero_or_pos f.width with noWidth | someW
    · have same : f.store base m = m := by
        rw [Field.store, noWidth]
        rfl
      rw [same]
    · exact readLE_writeLE_apart m f.value
        (apart_of_offsets base someW someN (whole.trans small) (inside.trans small) apart)

/-- **A range that no field meets.** -/
theorem readLE_storeFields_clear (small : size ≤ 2 ^ 64) (inside : x + n ≤ size) :
    ∀ {fs : List Field} {m : Mem}, (∀ f ∈ fs, f.Clear size x n) →
      readLE (storeFields m base fs) (base + BitVec.ofNat 64 x) n =
        readLE m (base + BitVec.ofNat 64 x) n := by
  intro fs
  induction fs with
  | nil => exact fun _ => rfl
  | cons f fs ih =>
    intro m clear
    obtain ⟨here, later⟩ := List.forall_mem_cons.mp clear
    exact (ih later).trans (readLE_store_clear _ _ small here inside)

/-- The fields are inside the first `size` bytes, and no two meet. -/
structure Spaced (size : Nat) (fs : List Field) : Prop where
  inside : ∀ f ∈ fs, f.offset + f.width ≤ size
  apart : fs.Pairwise fun f g => f.offset + f.width ≤ g.offset ∨ g.offset + g.width ≤ f.offset

/-- Where the fields are does not depend on their values. -/
theorem spaced_of_shape {shape : List (Nat × Nat)}
    (same : fs.map (fun f => (f.offset, f.width)) = shape) (inside : ∀ s ∈ shape, s.1 + s.2 ≤ size)
    (apart : shape.Pairwise fun s t => s.1 + s.2 ≤ t.1 ∨ t.1 + t.2 ≤ s.1) : Spaced size fs := by
  subst same
  exact ⟨fun f member => inside _ (List.mem_map_of_mem member), List.pairwise_map.mp apart⟩

/-- **A field is read back.** -/
theorem readLE_storeFields {f : Field} (member : f ∈ fs) (small : size ≤ 2 ^ 64)
    (spaced : Spaced size fs) :
    readLE (storeFields m base fs) (base + BitVec.ofNat 64 f.offset) f.width =
      f.value % 256 ^ f.width := by
  obtain ⟨before, after, rfl⟩ := List.append_of_mem member
  have inside := spaced.inside
  have later := (List.pairwise_cons.mp (List.pairwise_append.mp spaced.apart).2.1).1
  have whole := inside f member
  rw [storeFields, List.foldl_append, List.foldl_cons]
  refine (readLE_storeFields_clear small whole fun g among => ⟨?_, ?_⟩).trans ?_
  · exact inside g (List.mem_append_right _ (List.mem_cons_of_mem _ among))
  · exact (later g among).symm
  · exact readLE_writeLE_self _ _ _ _ (by omega)

/-- A range of cleared bytes. -/
theorem readLE_fill_zero (m : Mem) (base : Word) (small : size ≤ 2 ^ 64) (inside : x + n ≤ size) :
    readLE (fill m base 0 size) (base + BitVec.ofNat 64 x) n = 0 := by
  have zero : ∀ k a, readLE (fun _ => 0) a k = 0 := by
    intro k
    induction k with
    | zero => exact fun _ => rfl
    | succ k ih =>
      intro a
      rw [readLE, ih]
      rfl
  rw [← zero n (base + BitVec.ofNat 64 x)]
  refine readLE_congr fun i bound => if_pos ?_
  bv_omega

/-- **Nothing outside the fields changes.** -/
theorem storeFields_outside {a : Word} : ∀ {fs : List Field} {m : Mem},
    (∀ f ∈ fs, ¬ Within (base + BitVec.ofNat 64 f.offset) f.width a) →
      storeFields m base fs a = m a := by
  intro fs
  induction fs with
  | nil => exact fun _ => rfl
  | cons f fs ih =>
    intro m outside
    obtain ⟨here, later⟩ := List.forall_mem_cons.mp outside
    exact (ih later).trans (if_neg here)

/-- Fields of the first `size` bytes change nothing outside of these. -/
theorem storeFields_sameOutside (small : size ≤ 2 ^ 64)
    (inside : ∀ f ∈ fs, f.offset + f.width ≤ size) :
    SameOutside base size m (storeFields m base fs) := by
  intro a outside
  refine storeFields_outside fun f member within => outside ?_
  have whole := inside f member
  unfold Within at *
  bv_omega

/-! ### Tables -/

/-- An array that is filled in a loop. -/
theorem foldl_update_range {A : Type*} (f : Nat → A) (t : Nat → A) (v : Nat) : ∀ k : Nat,
    (List.range k).foldl (fun t i => Function.update t i (f i)) t v = if v < k then f v else t v := by
  intro k
  induction k with
  | zero => rfl
  | succ k ih =>
    rw [List.range_succ, List.foldl_append, List.foldl_cons, List.foldl_nil]
    by_cases last : v = k
    · rw [last, Function.update_self, if_pos (Nat.lt_succ_self k)]
    · rw [Function.update_of_ne last, ih]
      exact if_congr (by omega) rfl rfl

end ByteMem

/-! ## Copying forward, byte by byte

The loop `for (i = 0; i < n; i++) dst[i] = src[i];` over byte-addressed memory. The two ranges may
overlap, so a round may read what an earlier one has stored.

* `copyUp_apply` — a byte after some rounds: what the round of that byte read, or the old byte;
* `copyUp_eq_iff` — the bytes that arrive are the wanted ones exactly when each is what its round
  finds: the wanted byte of an earlier round, or the old byte;
* `copyUp_repeats` — the bytes that arrive, written out: a copy that runs into its own target repeats
  the bytes in front of it. -/

namespace ByteMem

/-- Memory after `n` rounds of the loop. -/
def copyUp (m : Mem) (dst src : Word) : Nat → Mem
  | 0 => m
  | n + 1 => fun x =>
    if x = dst + BitVec.ofNat 64 n then copyUp m dst src n (src + BitVec.ofNat 64 n)
    else copyUp m dst src n x

variable (m : Mem) (dst src : Word)

/-- **A byte after `n` rounds.** -/
theorem copyUp_apply {n : Nat} (small : n ≤ 2 ^ 64) (x : Word) :
    copyUp m dst src n x =
      if (x - dst).toNat < n then copyUp m dst src (x - dst).toNat (src + (x - dst)) else m x := by
  induction n with
  | zero => rfl
  | succ n ih =>
    rw [copyUp]
    dsimp only
    by_cases last : x = dst + BitVec.ofNat 64 n
    · have offset : x - dst = BitVec.ofNat 64 n := by
        rw [last]
        bv_omega
      have value : (BitVec.ofNat 64 n).toNat = n := by
        rw [BitVec.toNat_ofNat, Nat.mod_eq_of_lt small]
      rw [if_pos last, offset, value, if_pos (Nat.lt_succ_self n)]
    · have other : (x - dst).toNat ≠ n := by
        rintro rfl
        apply last
        bv_omega
      rw [if_neg last, ih (by omega)]
      by_cases inside : (x - dst).toNat < n
      · rw [if_pos inside, if_pos (by omega)]
      · rw [if_neg inside, if_neg (by omega)]

/-- Behind the last round nothing changes. -/
theorem copyUp_outside {n : Nat} (small : n ≤ 2 ^ 64) {x : Word} (outside : n ≤ (x - dst).toNat) :
    copyUp m dst src n x = m x := by
  rw [copyUp_apply m dst src small, if_neg (Nat.not_lt.mpr outside)]

/-- The byte that round `i` stores stays. -/
theorem copyUp_stored {n i : Nat} (small : n ≤ 2 ^ 64) (inside : i < n) :
    copyUp m dst src n (dst + BitVec.ofNat 64 i) =
      copyUp m dst src i (src + BitVec.ofNat 64 i) := by
  have offset : dst + BitVec.ofNat 64 i - dst = BitVec.ofNat 64 i := by bv_omega
  have value : (BitVec.ofNat 64 i).toNat = i := by
    rw [BitVec.toNat_ofNat, Nat.mod_eq_of_lt (by omega)]
  rw [copyUp_apply m dst src small, offset, value, if_pos inside]

/-- The byte that round `i` finds. -/
theorem copyUp_found {n i : Nat} (small : n ≤ 2 ^ 64) (inside : i < n) (v : Nat → Byte)
    (arrived : ∀ j < i, copyUp m dst src n (dst + BitVec.ofNat 64 j) = v j) :
    copyUp m dst src n (dst + BitVec.ofNat 64 i) =
      if (src + BitVec.ofNat 64 i - dst).toNat < i then v (src + BitVec.ofNat 64 i - dst).toNat
      else m (src + BitVec.ofNat 64 i) := by
  rw [copyUp_stored m dst src small inside]
  by_cases early : (src + BitVec.ofNat 64 i - dst).toNat < i
  · -- An earlier round has stored the byte where it now is read.
    have address : src + BitVec.ofNat 64 i =
        dst + BitVec.ofNat 64 (src + BitVec.ofNat 64 i - dst).toNat := by
      bv_omega
    rw [if_pos early, ← arrived _ early, copyUp_stored m dst src small (early.trans inside)]
    conv_lhs => rw [address]
    rw [copyUp_stored m dst src (by omega) early]
  · rw [if_neg early, copyUp_outside m dst src (by omega) (Nat.not_lt.mp early)]

/-- **When the wanted bytes arrive.** -/
theorem copyUp_eq_iff {n : Nat} (small : n ≤ 2 ^ 64) (v : Nat → Byte) :
    (∀ i < n, copyUp m dst src n (dst + BitVec.ofNat 64 i) = v i) ↔
      ∀ i < n, (if (src + BitVec.ofNat 64 i - dst).toNat < i then
        v (src + BitVec.ofNat 64 i - dst).toNat else m (src + BitVec.ofNat 64 i)) = v i := by
  constructor
  · intro arrived i inside
    rw [← copyUp_found m dst src small inside v fun j early => arrived j (early.trans inside)]
    exact arrived i inside
  · intro finds i
    -- Each round needs the earlier ones to be right.
    induction i using Nat.strong_induction_on with
    | _ i ih =>
      intro inside
      rw [copyUp_found m dst src small inside v fun j early => ih j early (early.trans inside)]
      exact finds i inside

/-- **The bytes that arrive**: those of the source, again and again from where the target starts. -/
theorem copyUp_repeats : ∀ {n i : Nat}, n ≤ 2 ^ 64 → i < n →
    copyUp m dst src n (dst + BitVec.ofNat 64 i) =
      m (src + BitVec.ofNat 64 (i % (dst - src).toNat)) := by
  intro n i
  induction i using Nat.strong_induction_on generalizing n with
  | _ i ih =>
    intro small inside
    rw [copyUp_stored m dst src small inside]
    by_cases early : 0 < (dst - src).toNat ∧ (dst - src).toNat ≤ i
    · -- Round `i` reads what an earlier one has stored.
      have place : src + BitVec.ofNat 64 i = dst + BitVec.ofNat 64 (i - (dst - src).toNat) := by
        bv_omega
      rw [place, ih (i - (dst - src).toNat) (by omega) (by omega) (by omega),
        ← Nat.mod_eq_sub_mod early.2]
    · have same : i % (dst - src).toNat = i := by
        by_cases zero : (dst - src).toNat = 0
        · rw [zero, Nat.mod_zero]
        · exact Nat.mod_eq_of_lt (by omega)
      rw [same]
      exact copyUp_outside m dst src (by omega) (by bv_omega)

end ByteMem
