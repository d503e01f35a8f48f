/-!
# Text in columns

The listings align numbers and names in columns of a fixed least width. A longer text is never cut.
Numbers and columns are `OneLine`: they hold no line break, so they do not disturb the lines of the
text they are put in.
-/

namespace Tapecode.Text

/-- A run of `n` blanks. -/
def blanks (n : Nat) : String :=
  String.ofList (List.replicate n ' ')

/-- A text set against the right edge of a column. -/
def alignRight (width : Nat) (s : String) : String :=
  blanks (width - s.length) ++ s

/-- A text set against the left edge of a column. -/
def alignLeft (width : Nat) (s : String) : String :=
  s ++ blanks (width - s.length)

/-- A number filled up with zeros; the sign counts towards the width and stands before the zeros. -/
def zeroFill (width : Nat) (n : Int) : String :=
  let sign := if n < 0 then "-" else ""
  let digits := toString n.natAbs
  sign ++ String.ofList (List.replicate (width - sign.length - digits.length) '0') ++ digits

/-! ## Numbers -/

/-- There is nothing but digits in a number. -/
theorem not_mem_toString_nat {c : Char} (hc : c.isDigit = false) (n : Nat) :
    c ∉ (toString n).toList := by
  intro hmem
  have hdigit : c.isDigit = true := by
    refine Nat.isDigit_of_mem_toDigits (n := n) (by decide) (Nat.le_refl 10) ?_
    simpa using hmem
  rw [hc] at hdigit
  cases hdigit

theorem toList_toString_negSucc (n : Nat) :
    (toString (Int.negSucc n)).toList = '-' :: (toString (n + 1)).toList :=
  String.toList_append

/-- There is nothing but digits and perhaps a sign in an integer. -/
theorem not_mem_toString_int {c : Char} (hc : c.isDigit = false) (hsign : c ≠ '-') (n : Int) :
    c ∉ (toString n).toList := by
  cases n with
  | ofNat n => exact not_mem_toString_nat hc n
  | negSucc n =>
    rw [toList_toString_negSucc, List.mem_cons]
    exact not_or.mpr ⟨hsign, not_mem_toString_nat hc (n + 1)⟩

theorem not_mem_zeroFill {c : Char} (hc : c.isDigit = false) (hsign : c ≠ '-') (width : Nat)
    (n : Int) : c ∉ (zeroFill width n).toList := by
  have hzero : c ≠ '0' := by
    rintro rfl
    cases hc
  have hdigits := not_mem_toString_nat hc n.natAbs
  unfold zeroFill
  split <;> simp_all

/-! ## Line breaks -/

/-- A text without line breaks. -/
def OneLine (s : String) : Prop :=
  '\n' ∉ s.toList

instance (s : String) : Decidable (OneLine s) :=
  inferInstanceAs (Decidable ('\n' ∉ s.toList))

@[simp] theorem oneLine_append {s t : String} : OneLine (s ++ t) ↔ OneLine s ∧ OneLine t := by
  simp [OneLine]

theorem oneLine_join {ss : List String} (h : ∀ s ∈ ss, OneLine s) : OneLine (String.join ss) := by
  rw [OneLine, String.toList_join, List.mem_flatMap]
  rintro ⟨s, hs, hmem⟩
  exact h s hs hmem

@[simp] theorem toList_blanks (n : Nat) : (blanks n).toList = List.replicate n ' ' := by
  simp [blanks]

@[simp] theorem oneLine_blanks (n : Nat) : OneLine (blanks n) := by
  simp [OneLine]

@[simp] theorem oneLine_toString_nat (n : Nat) : OneLine (toString n) :=
  not_mem_toString_nat (by decide) n

@[simp] theorem oneLine_toString_int (n : Int) : OneLine (toString n) :=
  not_mem_toString_int (by decide) (by decide) n

@[simp] theorem oneLine_alignRight {width : Nat} {s : String} :
    OneLine (alignRight width s) ↔ OneLine s := by
  simp [alignRight]

@[simp] theorem oneLine_alignLeft {width : Nat} {s : String} :
    OneLine (alignLeft width s) ↔ OneLine s := by
  simp [alignLeft]

@[simp] theorem oneLine_zeroFill (width : Nat) (n : Int) : OneLine (zeroFill width n) :=
  not_mem_zeroFill (by decide) (by decide) width n

end Tapecode.Text
