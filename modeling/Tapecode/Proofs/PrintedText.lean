import Tapecode.Text.Columns

/-!
# Reading printed text

What is printed in columns can be read back. `Text.lines` and `Text.words` take a text apart at its
line breaks and blanks, and `Text.number` reads a number. Lines without breaks are found again when
they have been put together (`Text.lines_intercalate`). The blanks that set a text against the edge
of a column leave its words as they are, and the zeros that fill a number up leave its value
(`Text.number_zeroFill`).
-/

namespace Tapecode.Text

/-- The lines of a text, with a line break between any two. An empty text has none. -/
def lines (s : String) : List String :=
  if s = "" then [] else (s.toList.splitOn '\n').map String.ofList

/-- The words of a text, with blanks between any two. -/
def words (s : String) : List String :=
  ((s.toList.splitOn ' ').filter (!·.isEmpty)).map String.ofList

/-- The number that some digits stand for, which may have a sign. -/
def number (s : String) : Int :=
  match s.toList with
  | '-' :: digits => -(Nat.ofDigitChars 10 digits 0 : Int)
  | digits => Nat.ofDigitChars 10 digits 0

/-! ## Lines and words -/

/-- Lines that are put together are found again. -/
theorem lines_intercalate {ss : List String} (h : ∀ s ∈ ss, OneLine s) (hne : ∀ s ∈ ss, s ≠ "") :
    lines ("\n".intercalate ss) = ss := by
  cases ss with
  | nil => rfl
  | cons s rest =>
    have hsome : "\n".intercalate (s :: rest) ≠ "" := by
      intro hempty
      have hlist := congrArg String.toList hempty
      cases rest with
      | nil => exact hne s (by simp) (by simpa using hempty)
      | cons t rest => simp at hlist
    have hsplit : (['\n'].intercalate ((s :: rest).map String.toList)).splitOn '\n' =
        (s :: rest).map String.toList :=
      List.splitOn_intercalate '\n' (by simpa [OneLine] using h) (by simp)
    rw [lines, if_neg hsome, String.toList_intercalate]
    change List.map String.ofList ((['\n'].intercalate _).splitOn '\n') = _
    rw [hsplit, List.map_map]
    simp [Function.comp_def]

theorem words_append_blank (s t : String) : words (s ++ " " ++ t) = words s ++ words t := by
  have hlist : (s ++ " " ++ t).toList = s.toList ++ ' ' :: t.toList := by simp
  rw [words, hlist, List.splitOn_append_cons_self, List.filter_append, List.map_append]
  rfl

theorem words_blanks_append (n : Nat) (s : String) : words (blanks n ++ s) = words s := by
  induction n with
  | zero => simp [blanks]
  | succ n ih =>
    have hlist : (blanks (n + 1) ++ s).toList = [] ++ ' ' :: (blanks n ++ s).toList := by
      simp [List.replicate_succ]
    rw [words, hlist, List.splitOn_append_cons_self]
    simpa [words] using ih

theorem words_append_blanks (s : String) (n : Nat) : words (s ++ blanks n) = words s := by
  cases n with
  | zero => simp [blanks]
  | succ n =>
    have hblanks : s ++ blanks (n + 1) = s ++ " " ++ (blanks n ++ "") := by
      apply String.toList_injective
      simp [List.replicate_succ]
    rw [hblanks, words_append_blank, words_blanks_append]
    exact List.append_nil _

theorem words_eq_singleton {s : String} (h : ' ' ∉ s.toList) (hne : s ≠ "") : words s = [s] := by
  have hsome : s.toList ≠ [] := by simpa using hne
  simp [words, List.splitOn_eq_singleton h, hsome]

theorem toString_int_ne_empty (n : Int) : toString n ≠ "" := by
  cases n with
  | ofNat n => exact Nat.repr_ne_empty
  | negSucc n =>
    intro hempty
    have hlist := toList_toString_negSucc n
    rw [hempty] at hlist
    cases hlist

theorem words_toString (n : Int) : words (toString n) = [toString n] :=
  words_eq_singleton (not_mem_toString_int (by decide) (by decide) n) (toString_int_ne_empty n)

theorem words_zeroFill (width : Nat) (n : Int) :
    words (zeroFill width n) = [zeroFill width n] := by
  refine words_eq_singleton (not_mem_zeroFill (by decide) (by decide) width n) ?_
  intro hempty
  have hlist := congrArg String.toList hempty
  simp [zeroFill] at hlist

/-! ## Numbers -/

theorem number_of_not_mem {s : String} (h : '-' ∉ s.toList) :
    number s = Nat.ofDigitChars 10 s.toList 0 := by
  unfold number
  split
  · rename_i digits hs
    exact absurd (hs ▸ List.mem_cons_self) h
  · rfl

theorem number_neg (s : String) : number ("-" ++ s) = -(Nat.ofDigitChars 10 s.toList 0 : Int) := by
  have hlist : ("-" ++ s).toList = '-' :: s.toList := by simp
  rw [number, hlist]
  rfl

theorem ofDigitChars_toString (n : Nat) : Nat.ofDigitChars 10 (toString n).toList 0 = n := by
  simp

/-- A number is read as it was written. -/
theorem number_toString (n : Int) : number (toString n) = n := by
  cases n with
  | ofNat n =>
    change number (toString n) = n
    rw [number_of_not_mem (not_mem_toString_nat (by decide) n), ofDigitChars_toString]
  | negSucc n =>
    change number ("-" ++ toString (n + 1)) = Int.negSucc n
    rw [number_neg, ofDigitChars_toString]
    rfl

/-- Zeros before a number do not change it. -/
theorem number_zeroFill (width : Nat) (n : Int) : number (zeroFill width n) = n := by
  have hvalue (k : Nat) : Nat.ofDigitChars 10
      (String.ofList (List.replicate k '0') ++ toString n.natAbs).toList 0 = n.natAbs := by
    rw [String.toList_append, Nat.ofDigitChars_append, String.toList_ofList,
      Nat.ofDigitChars_replicate_zero, Nat.mul_zero, ofDigitChars_toString]
  by_cases hn : n < 0
  · simp only [zeroFill, if_pos hn]
    rw [String.append_assoc, number_neg, hvalue]
    omega
  · simp only [zeroFill, if_neg hn]
    rw [String.empty_append, number_of_not_mem, hvalue]
    · omega
    · simpa using not_mem_toString_nat (by decide) n.natAbs

end Tapecode.Text
