/-!
# Machine words

Bytecode, cell offsets and jump distances are signed 64-bit integers. A `Word` is an `Int`, and there
are two ways to deal with a sum of words that leaves the 64-bit range.

* A machine and a compiler ask `Word.checked` before they use a sum. `Word.saturate` is the value
  reported for one that does not fit.
* A builder does not ask. It adds offsets in an `Arithmetic`: the exact one, which is what one reasons
  about, or the wrapping one of 64-bit integers. The two agree on every sum that fits
  (`Arithmetic.add_of_fits`).
-/

namespace Tapecode

/-- A slot of bytecode. -/
abbrev Word := Int

namespace Word

/-- The least signed 64-bit integer. -/
def least : Word := -9223372036854775808

/-- The greatest signed 64-bit integer. -/
def greatest : Word := 9223372036854775807

/-- The integer itself if it fits in 64 bits. -/
def checked (n : Int) : Option Word :=
  if least ≤ n ∧ n ≤ greatest then some n else none

/-- The 64-bit integer nearest to `n`. -/
def saturate (n : Int) : Word :=
  max least (min greatest n)

/-- The 64-bit integer that agrees with `n` modulo `2 ^ 64`. -/
def wrap (n : Int) : Word :=
  n.bmod 18446744073709551616

/-- The low eight bits of a word, as the tape stores them. -/
def byte (w : Word) : UInt8 :=
  UInt8.ofInt w

theorem checked_eq_some_iff {n w : Int} :
    checked n = some w ↔ n = w ∧ least ≤ n ∧ n ≤ greatest := by
  unfold checked
  split
  · rename_i h
    simp only [Option.some.injEq, h, and_self, and_true]
  · rename_i h
    simp only [reduceCtorEq, h, and_false]

/-- A sum that fits is reported as it is. -/
theorem saturate_of_fits {n : Int} (hl : least ≤ n) (hg : n ≤ greatest) : saturate n = n := by
  rw [saturate, Int.min_eq_right hg, Int.max_eq_right hl]

/-- An integer that fits is not changed by wrapping. -/
theorem wrap_of_fits {n : Int} (hl : least ≤ n) (hg : n ≤ greatest) : wrap n = n :=
  Int.bmod_eq_of_le hl (Int.lt_of_le_of_lt hg (by decide))

theorem wrap_wrap_add (m n : Int) : wrap (wrap m + n) = wrap (m + n) :=
  Int.bmod_add_bmod

theorem wrap_add_wrap (m n : Int) : wrap (m + wrap n) = wrap (m + n) :=
  Int.add_bmod_bmod

/-- A sum of bytes is stored as the sum of what is stored, modulo 256. -/
theorem byte_toInt_add (a b : Int8) : byte (a + b).toInt = byte a.toInt + byte b.toInt := by
  have hmod (n : Int) : byte (n.bmod 256) = byte n := by
    change UInt8.ofNat (n.bmod 256 % (256 : Nat)).toNat = UInt8.ofNat (n % (256 : Nat)).toNat
    rw [Int.bmod_emod]
  calc byte (a + b).toInt = byte ((a.toInt + b.toInt).bmod 256) := by rw [Int8.toInt_add]
    _ = byte (a.toInt + b.toInt) := hmod _
    _ = byte a.toInt + byte b.toInt := UInt8.ofInt_add _ _

end Word

/-- How a sum of offsets is formed by one who does not ask whether it fits. -/
inductive Arithmetic
  /-- As a sum of integers. -/
  | exact
  /-- As a sum of 64-bit integers, modulo `2 ^ 64`. -/
  | wrapping
  deriving DecidableEq, Repr

namespace Arithmetic

/-- The sum of two integers. -/
def add : Arithmetic → Int → Int → Int
  | exact, m, n => m + n
  | wrapping, m, n => Word.wrap (m + n)

@[simp]
theorem exact_add (m n : Int) : exact.add m n = m + n :=
  rfl

theorem wrapping_add (m n : Int) : wrapping.add m n = Word.wrap (m + n) :=
  rfl

/-- A sum that fits is the same in every arithmetic. -/
theorem add_of_fits (a : Arithmetic) {m n : Int} (hl : Word.least ≤ m + n)
    (hg : m + n ≤ Word.greatest) : a.add m n = m + n := by
  cases a with
  | exact => rfl
  | wrapping => exact Word.wrap_of_fits hl hg

theorem add_assoc (a : Arithmetic) (l m n : Int) : a.add (a.add l m) n = a.add l (a.add m n) := by
  cases a with
  | exact => exact Int.add_assoc l m n
  | wrapping =>
    rw [wrapping_add, wrapping_add, wrapping_add, wrapping_add, Word.wrap_wrap_add,
      Word.wrap_add_wrap, Int.add_assoc]

@[simp]
theorem add_zero_zero (a : Arithmetic) : a.add 0 0 = 0 :=
  a.add_of_fits (by decide) (by decide)

/-- A sum is not changed by adding zero to it, though in the wrapping arithmetic its summands may be. -/
theorem add_add_zero (a : Arithmetic) (m n : Int) : a.add (a.add m n) 0 = a.add m n := by
  cases a with
  | exact => exact Int.add_zero _
  | wrapping => rw [wrapping_add, wrapping_add, Word.wrap_wrap_add, Int.add_zero]

end Arithmetic

end Tapecode
