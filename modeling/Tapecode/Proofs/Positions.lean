import Mathlib.Data.List.DropRight
import Tapecode.Diagnostic
import Tapecode.Proofs.Brackets
import Tapecode.Proofs.Warnings

/-!
# Positions and source lines

Positions are counted byte by byte while tokens are read, and a diagnostic finds its line by splitting
the source text at its line feeds. The two agree:

* `Position.behind` tells a position from the line feeds before it, and `tokenize_eq` lists the tokens
  of a source text with these positions. `Lexer.next` hands out the same tokens one at a time, and
  nothing after the last of them (`Lexer.item_eq`).
* `Diagnostic.lines_getElem?` is the line of any place in a source text, so that the byte of a symbol
  stands at the symbol's column in the symbol's line (`Token.exists_line`).
* Every position that a parse reports is that of a token (`Reported.mem_tokenize`), so a diagnostic
  shows its line (`Diagnostic.shows_of_line`), with a caret under the token if the line is ASCII
  (`Diagnostic.pointsTo_of_line`).

`positions_agree` puts this together.
-/

namespace Tapecode

/-! ## Counting -/

/-- The position behind some bytes: one line for each line feed, and one column for each byte since
the last of them. -/
def Position.behind (bytes : List UInt8) : Position where
  line := 1 + bytes.count lineFeed
  column := 1 + (bytes.rtakeWhile (· ≠ lineFeed)).length

/-- **Counting byte by byte finds the position behind the bytes.** -/
theorem positionAfter_eq_behind (bytes : List UInt8) : positionAfter bytes = .behind bytes := by
  induction bytes using List.reverseRecOn with
  | nil => rfl
  | append_singleton bytes b ih =>
    rw [positionAfter_concat, ih, Position.after]
    by_cases hb : b = Position.lineFeed
    · simp [Position.behind, Position.nextLine, hb, Nat.add_assoc]
    · simp [Position.behind, Position.nextColumn, hb, Nat.add_assoc]

theorem Position.after_behind (bytes : List UInt8) (b : UInt8) :
    (behind bytes).after b = behind (bytes ++ [b]) := by
  rw [← positionAfter_eq_behind, ← positionAfter_concat, positionAfter_eq_behind]

/-! ## Tokens -/

/-- The bytes that are not comments. -/
def commandBytes : List UInt8 :=
  "+-<>,.[]".toList.map Char.toUInt8

/-- The byte of a symbol; the end of the input has none. -/
def TokenKind.byte? : TokenKind → Option UInt8
  | symbol s => some s.byte
  | endOfInput => none

@[simp] theorem TokenKind.byte?_symbol (s : Symbol) : (symbol s).byte? = some s.byte := rfl

theorem Symbol.map_byte_ofByte? (b : UInt8) :
    (ofByte? b).map byte = if b ∈ commandBytes then some b else none := by
  have hall : commandBytes = all.map byte := by decide
  cases hb : ofByte? b with
  | some s =>
    have hbyte := byte_of_ofByte? hb
    have hmem : b ∈ commandBytes := by
      rw [hall, ← hbyte]
      exact List.mem_map_of_mem (by cases s <;> decide)
    rw [if_pos hmem, Option.map_some, hbyte]
  | none =>
    have hmem : b ∉ commandBytes := by
      rw [hall]
      intro h
      obtain ⟨s, -, rfl⟩ := List.mem_map.mp h
      simp at hb
    rw [if_neg hmem, Option.map_none]

/-- The token of the byte at an index, if this byte is a symbol. -/
def tokenAt? (source : List UInt8) (i : Nat) : Option Token :=
  (source[i]?.bind Symbol.ofByte?).map fun s => ⟨.symbol s, .behind (source.take i)⟩

theorem tokenizeFrom_eq (before after : List UInt8) :
    tokenizeFrom (.behind before) after =
      (List.range' before.length after.length).filterMap (tokenAt? (before ++ after)) ++
        [⟨.endOfInput, .behind (before ++ after)⟩] := by
  induction after generalizing before with
  | nil => simp [tokenizeFrom]
  | cons b rest ih =>
    have hrest := ih (before ++ [b])
    rw [← Position.after_behind, List.append_assoc, List.singleton_append, List.length_append,
      List.length_singleton] at hrest
    have hhere : tokenAt? (before ++ b :: rest) before.length =
        (Symbol.ofByte? b).map fun s => ⟨.symbol s, .behind before⟩ := by
      simp [tokenAt?]
    rw [tokenizeFrom, List.length_cons, List.range'_succ, List.filterMap_cons, hhere, hrest]
    cases Symbol.ofByte? b <;> rfl

/-- **The tokens of a source text are its symbols in order, each at its position**, and then the end
of the input behind the last byte. -/
theorem tokenize_eq (source : List UInt8) :
    tokenize source = (List.range source.length).filterMap (tokenAt? source) ++
      [⟨.endOfInput, .behind source⟩] := by
  rw [List.range_eq_range']
  exact tokenizeFrom_eq [] source

/-- The symbols among the tokens are the bytes that are not comments. -/
theorem bytes_tokenizeFrom (p : Position) (source : List UInt8) :
    (tokenizeFrom p source).filterMap (·.kind.byte?) = source.filter (· ∈ commandBytes) := by
  induction source generalizing p with
  | nil => rfl
  | cons b rest ih =>
    have hb := Symbol.map_byte_ofByte? b
    rw [tokenizeFrom, List.filter_cons]
    cases hs : Symbol.ofByte? b with
    | some s =>
      rw [hs] at hb
      split at hb
      · rename_i hmem
        obtain rfl := Option.some.inj hb
        simp [hmem, ih]
      · cases hb
    | none =>
      rw [hs] at hb
      split at hb
      · cases hb
      · rename_i hmem
        simp [hmem, ih]

/-! ## One token at a time -/

/-- A lexer that hands out tokens one at a time. -/
structure Lexer where
  /-- The bytes that have not been read. -/
  rest : List UInt8
  position : Position := .start
  /-- Whether the end of the input has been handed out. -/
  finished : Bool := false

namespace Lexer

/-- The next token of some bytes, and the lexer behind it. -/
def scan (p : Position) : List UInt8 → Token × Lexer
  | [] => (⟨.endOfInput, p⟩, { rest := [], position := p, finished := true })
  | b :: rest =>
    match Symbol.ofByte? b with
    | some s => (⟨.symbol s, p⟩, { rest, position := p.after b })
    | none => scan (p.after b) rest

/-- The next token, unless the end of the input has been handed out. -/
def next (l : Lexer) : Option Token × Lexer :=
  if l.finished then (none, l)
  else
    let (t, l) := scan l.position l.rest
    (some t, l)

/-- What the lexer hands out when it is asked for the `n`th time, counted from zero. -/
def item (l : Lexer) : Nat → Option Token
  | 0 => l.next.1
  | n + 1 => l.next.2.item n

/-- The tokens that a lexer has still to hand out. -/
def tokens (l : Lexer) : List Token :=
  if l.finished then [] else tokenizeFrom l.position l.rest

theorem tokenizeFrom_scan (p : Position) (bytes : List UInt8) :
    tokenizeFrom p bytes = (scan p bytes).1 :: (scan p bytes).2.tokens := by
  induction bytes generalizing p with
  | nil => rfl
  | cons b rest ih =>
    rw [tokenizeFrom, scan]
    cases Symbol.ofByte? b with
    | some s => rfl
    | none => exact ih (p.after b)

theorem next_tokens (l : Lexer) :
    l.next.1 = l.tokens.head? ∧ l.next.2.tokens = l.tokens.tail := by
  rw [next, tokens]
  cases hfinished : l.finished with
  | true => simp [tokens, hfinished]
  | false => simp [tokenizeFrom_scan]

/-- **A lexer hands out its tokens in order, and nothing after them**, however often it is asked. -/
theorem item_eq (l : Lexer) (n : Nat) : l.item n = l.tokens[n]? := by
  induction n generalizing l with
  | zero => rw [item, l.next_tokens.1, List.head?_eq_getElem?]
  | succ n ih => rw [item, ih, l.next_tokens.2, List.getElem?_tail]

end Lexer

/-! ## Lines -/

namespace Diagnostic

open Position

theorem lines_ne_nil (bytes : List UInt8) : lines bytes ≠ [] := by
  cases bytes with
  | nil => simp [lines]
  | cons b rest =>
    rw [lines]
    split
    · simp
    · split <;> simp

theorem lines_cons_of_ne {b : UInt8} (hb : b ≠ lineFeed) {line : List UInt8}
    {more : List (List UInt8)} {rest : List UInt8} (h : lines rest = line :: more) :
    lines (b :: rest) = (b :: line) :: more := by
  simp [lines, hb, h]

theorem lines_append_lineFeed (xs ys : List UInt8) :
    lines (xs ++ lineFeed :: ys) = lines xs ++ lines ys := by
  induction xs with
  | nil => simp [lines]
  | cons x xs ih =>
    by_cases hx : x = lineFeed
    · simp [lines, hx, ih]
    · obtain ⟨line, more, hlines⟩ := List.exists_cons_of_ne_nil (lines_ne_nil xs)
      have happend : lines (xs ++ lineFeed :: ys) = line :: (more ++ lines ys) := by
        rw [ih, hlines, List.cons_append]
      rw [lines_cons_of_ne hx hlines, List.cons_append, lines_cons_of_ne hx happend, List.cons_append]

theorem length_lines (bytes : List UInt8) :
    (lines bytes).length = bytes.count lineFeed + 1 := by
  induction bytes with
  | nil => rfl
  | cons b rest ih =>
    by_cases hb : b = lineFeed
    · simp [lines, hb, ih]
    · obtain ⟨line, more, hlines⟩ := List.exists_cons_of_ne_nil (lines_ne_nil rest)
      rw [lines_cons_of_ne hb hlines, List.length_cons, ← List.length_cons (a := line), ← hlines, ih,
        List.count_cons_of_ne hb]

theorem lines_getElem?_zero (bytes : List UInt8) :
    (lines bytes)[0]? = some (bytes.takeWhile (· ≠ lineFeed)) := by
  induction bytes with
  | nil => rfl
  | cons b rest ih =>
    by_cases hb : b = lineFeed
    · simp [lines, hb]
    · obtain ⟨line, more, hlines⟩ := List.exists_cons_of_ne_nil (lines_ne_nil rest)
      rw [hlines, List.getElem?_cons_zero, Option.some.injEq] at ih
      rw [lines_cons_of_ne hb hlines, List.getElem?_cons_zero, ih,
        List.takeWhile_cons_of_pos (by simpa using hb)]

/-- **The line of a place in a text** is what stands between the line feeds around this place. -/
theorem lines_getElem? (before after : List UInt8) :
    (lines (before ++ after))[before.count lineFeed]? =
      some (before.rtakeWhile (· ≠ lineFeed) ++ after.takeWhile (· ≠ lineFeed)) := by
  induction before using List.reverseRecOn generalizing after with
  | nil => simpa using lines_getElem?_zero after
  | append_singleton before b ih =>
    rw [List.append_assoc, List.singleton_append]
    by_cases hb : b = lineFeed
    · subst hb
      rw [lines_append_lineFeed, List.getElem?_append_right (by simp [length_lines]), length_lines]
      simpa using lines_getElem?_zero after
    · have hline := ih (b :: after)
      rw [List.takeWhile_cons_of_pos (by simpa using hb)] at hline
      rw [List.count_append, List.count_singleton, if_neg (by simpa using hb), Nat.add_zero,
        List.rtakeWhile_concat_pos _ _ _ (by simpa using hb), List.append_assoc]
      exact hline

theorem line?_behind (before after : List UInt8) :
    line? (before ++ after) (behind before).line =
      some (before.rtakeWhile (· ≠ lineFeed) ++ after.takeWhile (· ≠ lineFeed)) := by
  rw [behind, Nat.add_comm]
  exact lines_getElem? before after

end Diagnostic

/-! ## Tokens in their lines -/

/-- Where a token stands in a line of a source text: a symbol where its byte is, and the end of the
input behind the last byte of the last line. -/
def Token.StandsIn (source row : List UInt8) (t : Token) : Prop :=
  match t.kind with
  | .symbol s => 1 ≤ t.position.column ∧ row[t.position.column - 1]? = some s.byte
  | .endOfInput =>
    t.position.line = (Diagnostic.lines source).length ∧ t.position.column = row.length + 1

theorem Symbol.byte_ne_lineFeed (s : Symbol) : s.byte ≠ Position.lineFeed := by
  cases s <;> decide

theorem tokenAt?_inv {source : List UInt8} {i : Nat} {t : Token} (h : tokenAt? source i = some t) :
    ∃ before s after, source = before ++ Symbol.byte s :: after ∧
      t = ⟨.symbol s, .behind before⟩ := by
  obtain ⟨s, hs, rfl⟩ := Option.map_eq_some_iff.mp h
  obtain ⟨b, hb, hbyte⟩ := Option.bind_eq_some_iff.mp hs
  obtain ⟨hi, rfl⟩ := List.getElem?_eq_some_iff.mp hb
  refine ⟨source.take i, s, source.drop (i + 1), ?_, rfl⟩
  rw [Symbol.byte_of_ofByte? hbyte, ← List.drop_eq_getElem_cons hi, List.take_append_drop]

/-- **The line of a token exists, and the token stands in it.** -/
theorem Token.exists_line {source : List UInt8} {t : Token} (h : t ∈ tokenize source) :
    ∃ line, Diagnostic.line? source t.position.line = some line ∧ t.StandsIn source line := by
  rw [tokenize_eq, List.mem_append, List.mem_filterMap, List.mem_singleton] at h
  rcases h with ⟨i, -, hi⟩ | rfl
  · obtain ⟨before, s, after, rfl, rfl⟩ := tokenAt?_inv hi
    refine ⟨_, Diagnostic.line?_behind before _, Nat.le_add_right 1 _, ?_⟩
    rw [List.takeWhile_cons_of_pos (by simpa using s.byte_ne_lineFeed)]
    simp [Position.behind]
  · have hline := Diagnostic.line?_behind source []
    rw [List.append_nil, List.takeWhile_nil, List.append_nil] at hline
    refine ⟨_, hline, ?_, ?_⟩
    · rw [Diagnostic.length_lines, Position.behind, Nat.add_comm]
    · exact Nat.add_comm 1 _

/-! ## What is printed -/

namespace Text.Utf8

/-- Bytes below 128 stand for the characters with their codes. -/
theorem decode_ascii {bytes : List UInt8} (h : ∀ b ∈ bytes, b < 128) :
    decode bytes = bytes.map fun b => Char.ofNat b.toNat := by
  induction bytes with
  | nil => rfl
  | cons b rest ih =>
    obtain ⟨hb, hrest⟩ := List.forall_mem_cons.mp h
    have hsmall : b.toNat ≤ 0x7F := Nat.le_of_lt_succ (UInt8.lt_iff_toNat_lt.mp hb)
    rw [List.map_cons, ← ih hrest, decode, decodeFrom, next, first, if_pos hsmall]
    rfl

theorem eq_of_char_eq_newline {b : UInt8} (h : Char.ofNat b.toNat = '\n') :
    b = Position.lineFeed := by
  have hvalid : b.toNat.isValidChar := .inl (Nat.lt_trans b.toNat_lt (by decide))
  have hcode := congrArg Char.toNat h
  rw [Char.ofNat, dif_pos hvalid] at hcode
  exact UInt8.toNat.inj hcode

end Text.Utf8

namespace Diagnostic

open Text

/-- A printed text shows the line with a number, and below it a caret behind `k` blanks. -/
def Shows (text : String) (severity : Severity) (styled : Bool) (number line : String) (k : Nat) :
    Prop :=
  ∃ head, text = head ++
    "\n" ++ (Style.boldBlue.apply styled number ++ " " ++ Style.boldBlue.apply styled "|" ++ " " ++
      line) ++
    "\n" ++ (blanks number.length ++ " " ++ Style.boldBlue.apply styled "|" ++ " " ++
      severity.style.apply styled (blanks k ++ "^"))

/-- The last line of a text ends with a caret, and the character right above it is `c`. -/
def PointsTo (text : String) (c : Char) : Prop :=
  ∃ head row caret k, text = head ++ "\n" ++ row ++ "\n" ++ caret ∧ OneLine row ∧ OneLine caret ∧
    caret.length = k + 1 ∧ caret.toList[k]? = some '^' ∧ row.toList[k]? = some c

/-- **A diagnostic whose line exists shows this line and a caret.** -/
theorem shows_of_line {d : Diagnostic} {p : Position} (hp : d.position = some p)
    {source line : List UInt8} (hline : line? source p.line = some line) (styled : Bool) :
    Shows (d.render source styled) d.severity styled (toString p.line) (lineText line)
      (p.column - 1) := by
  refine ⟨d.severity.style.apply styled d.severity.label ++ ": " ++
    Style.bold.apply styled d.message ++ "\n " ++ Style.boldBlue.apply styled "-->" ++ " " ++
    d.path ++ ":" ++ p.text ++ "\n" ++ blanks (toString p.line).length ++ " " ++
    Style.boldBlue.apply styled "|", ?_⟩
  simp only [render, hp, hline, String.append_assoc]

@[simp] theorem apply_false (style : Style) (text : String) : style.apply false text = text := rfl

/-- Without styles, the caret stands under the character that has as many before it in its line. -/
theorem Shows.pointsTo {text : String} {severity : Severity} {number line : String} {k : Nat}
    {c : Char} (h : Shows text severity false number line k) (hnumber : OneLine number)
    (hline : OneLine line) (hc : line.toList[k]? = some c) : PointsTo text c := by
  obtain ⟨head, rfl⟩ := h
  have hbar : OneLine " " ∧ OneLine "|" ∧ OneLine "^" := by decide
  -- both lines begin with as many characters before the line and the caret
  let gutter : List Char := List.replicate number.length ' ' ++ [' ', '|', ' ']
  have hrow : (number ++ " " ++ "|" ++ " " ++ line).toList =
      number.toList ++ [' ', '|', ' '] ++ line.toList := by simp
  have hcaret : (blanks number.length ++ " " ++ "|" ++ " " ++ (blanks k ++ "^")).toList =
      gutter ++ List.replicate k ' ' ++ ['^'] := by simp [gutter]
  have hlength : number.length + 3 + k = (gutter ++ List.replicate k ' ').length := by
    simp [gutter]
    omega
  refine ⟨head, _, _, number.length + 3 + k, rfl, ?_, ?_, ?_, ?_, ?_⟩
  · simp [hnumber, hline, hbar]
  · simp [hbar]
  · rw [← String.length_toList, apply_false, apply_false, hcaret, List.length_append, ← hlength]
    rfl
  · rw [apply_false, apply_false, hcaret, hlength, List.getElem?_concat_length]
  · rw [apply_false, apply_false, hrow, List.getElem?_append_right (by simp [String.length_toList])]
    simpa [String.length_toList] using hc

theorem lineFeed_not_mem_of_mem_lines {bytes line : List UInt8} (h : line ∈ lines bytes) :
    Position.lineFeed ∉ line := by
  induction bytes generalizing line with
  | nil => simp [List.mem_singleton.mp h]
  | cons b rest ih =>
    by_cases hb : b = Position.lineFeed
    · simp only [lines, hb, if_true, List.mem_cons] at h
      rcases h with rfl | h
      · exact List.not_mem_nil
      · exact ih h
    · obtain ⟨first, more, hlines⟩ := List.exists_cons_of_ne_nil (lines_ne_nil rest)
      rw [lines_cons_of_ne hb hlines, List.mem_cons] at h
      rw [hlines] at ih
      rcases h with rfl | h
      · exact List.not_mem_cons_of_ne_of_not_mem (Ne.symm hb) (ih List.mem_cons_self)
      · exact ih (List.mem_cons_of_mem _ h)

theorem lineFeed_not_mem_of_line? {source line : List UInt8} {number : Nat}
    (h : line? source number = some line) : Position.lineFeed ∉ line := by
  cases number with
  | zero => cases h
  | succ n => exact lineFeed_not_mem_of_mem_lines (List.mem_of_getElem? h)

section Ascii

variable {row : List UInt8} (hascii : ∀ b ∈ row, b < 128)

include hascii

theorem toList_lineText : (lineText row).toList =
    (row.map fun b => Char.ofNat b.toNat).rdropWhile (· = '\r') := by
  rw [lineText, Text.Utf8.decode_ascii hascii, String.toList_ofList]
  rfl

/-- The carriage returns at the end of a line do not matter for the symbols in it. -/
theorem getElem?_lineText {k : Nat} {s : Symbol} (hs : row[k]? = some s.byte) :
    (lineText row).toList[k]? = some s.char := by
  have hchar : Char.ofNat s.byte.toNat = s.char := by cases s <;> decide
  have hreturn : s.char ≠ '\r' := by cases s <;> decide
  have hget : (row.map fun b => Char.ofNat b.toNat)[k]? = some s.char := by
    rw [List.getElem?_map, hs, Option.map_some, hchar]
  rw [toList_lineText hascii]
  generalize (row.map fun b => Char.ofNat b.toNat) = chars at hget
  rw [← List.rdropWhile_append_rtakeWhile (p := (· = '\r')) (l := chars),
    List.getElem?_append] at hget
  split at hget
  · exact hget
  · have hmem := List.mem_rtakeWhile_imp (List.mem_of_getElem? hget)
    exact absurd (of_decide_eq_true hmem) hreturn

theorem oneLine_lineText (hline : Position.lineFeed ∉ row) : OneLine (lineText row) := by
  rw [OneLine, toList_lineText hascii]
  intro hmem
  obtain ⟨b, hb, hchar⟩ := List.mem_map.mp ((List.rdropWhile_prefix _ _).subset hmem)
  rw [Text.Utf8.eq_of_char_eq_newline hchar] at hb
  exact hline hb

end Ascii

/-- **Without styles, a diagnostic for a symbol points to the symbol**, if its line is ASCII. -/
theorem pointsTo_of_line {d : Diagnostic} {p : Position} (hp : d.position = some p)
    {source row : List UInt8} (hline : line? source p.line = some row)
    (hascii : ∀ b ∈ row, b < 128) {s : Symbol} (hs : row[p.column - 1]? = some s.byte) :
    PointsTo (d.render source false) s.char :=
  (shows_of_line hp hline false).pointsTo (oneLine_toString_nat _)
    (oneLine_lineText hascii (lineFeed_not_mem_of_line? hline)) (getElem?_lineText hascii hs)

end Diagnostic

/-! ## What a parse reports -/

/-- What a parse reports and where: the loop end or the end of the input at which it fails, the loop
that is still open then, or a loop that it has dropped. -/
inductive Reported (passes : Passes) (source : List UInt8) : Token → Prop
  | unmatched {p : Position} (h : parse passes source = .error (.unmatchedCloseBracket p)) :
      Reported passes source ⟨.symbol .loopEnd, p⟩
  | inputEnded {p opened : Position} (h : parse passes source = .error (.unclosedLoop p opened)) :
      Reported passes source ⟨.endOfInput, p⟩
  | unclosed {p opened : Position} (h : parse passes source = .error (.unclosedLoop p opened)) :
      Reported passes source ⟨.symbol .loopStart, opened⟩
  | dropped {program : Program} {ws : List Warning} {w : Warning}
      (h : parse passes source = .ok (program, ws)) (hw : w ∈ ws) :
      Reported passes source ⟨.symbol .loopStart, w.position⟩

theorem Token.kind_of_weight_eq_one {t : Token} (h : t.weight = 1) :
    t.kind = .symbol .loopStart := by
  unfold weight at h
  split at h <;> simp_all

theorem Token.kind_of_weight_eq_neg_one {t : Token} (h : t.weight = -1) :
    t.kind = .symbol .loopEnd := by
  unfold weight at h
  split at h <;> simp_all

theorem Token.mem_of_mem_body {tokens : List Token} {t : Token} (h : t ∈ body tokens) :
    t ∈ tokens :=
  (List.takeWhile_prefix _).subset h

theorem mem_tokenize_of_split (before : List UInt8) (s : Symbol) (after : List UInt8) :
    ⟨.symbol s, .behind before⟩ ∈ tokenize (before ++ s.byte :: after) := by
  rw [tokenize_eq]
  refine List.mem_append_left _ (List.mem_filterMap.mpr ⟨before.length, ?_, ?_⟩)
  · simp
  · simp [tokenAt?]

theorem endOfInput_mem_tokenize (source : List UInt8) :
    ⟨.endOfInput, .behind source⟩ ∈ tokenize source := by
  simp [tokenize_eq]

theorem endPosition_tokenize (source : List UInt8) (opened : Position) :
    ⟨.endOfInput, Token.endPosition (tokenize source) opened⟩ ∈ tokenize source := by
  rw [Token.endPosition]
  cases hfind : (tokenize source).find? (·.kind = .endOfInput) with
  | none => simpa using List.find?_eq_none.mp hfind _ (endOfInput_mem_tokenize source)
  | some t =>
    obtain ⟨kind, position⟩ := t
    obtain rfl : kind = .endOfInput := by simpa using List.find?_some hfind
    exact List.mem_of_find?_eq_some hfind

/-- **Every position that a parse reports is that of a token of the right kind.** -/
theorem Reported.mem_tokenize {passes : Passes} {source : List UInt8} {t : Token}
    (h : Reported passes source t) : t ∈ tokenize source := by
  have hverdict : Parse.Verdict (tokenize source) (parse passes source) :=
    (Parse.Took.start passes).run (tokenize source)
  cases h with
  | unmatched h =>
    rw [h] at hverdict
    cases hverdict with
    | @unmatched before t hunmatched _ =>
      obtain ⟨after, hbody, hweight, -⟩ := hunmatched
      rw [← Token.kind_of_weight_eq_neg_one hweight]
      exact Token.mem_of_mem_body (by simp [hbody])
  | inputEnded h =>
    rw [h] at hverdict
    cases hverdict with
    | unclosed _ _ _ => exact endPosition_tokenize source _
  | unclosed h =>
    rw [h] at hverdict
    cases hverdict with
    | @unclosed s after _ hunclosed _ =>
      obtain ⟨before, hbody, hweight, -⟩ := hunclosed
      rw [← Token.kind_of_weight_eq_one hweight]
      exact Token.mem_of_mem_body (by simp [hbody])
  | dropped h hw =>
    obtain ⟨last, hreads, -, -, rfl⟩ := Parse.Reads.of_parse h
    obtain ⟨l, outer, ⟨before, after, p, rfl, hposition, -⟩, -⟩ :=
      hreads.warned _ (Array.mem_toList_iff.mp hw)
    rw [hposition, positionAfter_eq_behind]
    exact mem_tokenize_of_split before .loopStart after

/-- **Positions and source lines agree.** Asked for its tokens one at a time, a lexer hands out those
of the source text and then nothing. They are the bytes `+-<>,.[]` of the source text in order, each
at a position that is told from the line feeds before it, and one end of the input behind the last
byte. The line of each of them exists, with the symbol's byte at its column; the end of the input is
behind the last byte of the last line. So whatever a parse reports at a position, a diagnostic with
this position shows its line and a caret; and if it is a symbol and its line is ASCII, then without
styles the character of the printed line right above the caret is this symbol. -/
theorem positions_agree (source : List UInt8) :
    (∀ n, Lexer.item { rest := source } n = (tokenize source)[n]?) ∧
    tokenize source = (List.range source.length).filterMap (tokenAt? source) ++
      [⟨.endOfInput, .behind source⟩] ∧
    (tokenize source).filterMap (·.kind.byte?) = source.filter (· ∈ commandBytes) ∧
    (∀ t ∈ tokenize source, ∃ line, Diagnostic.line? source t.position.line = some line ∧
      t.StandsIn source line) ∧
    ∀ passes t, Reported passes source t → ∀ d : Diagnostic, d.position = some t.position →
      ∃ line, Diagnostic.line? source t.position.line = some line ∧
        (∀ styled, Diagnostic.Shows (d.render source styled) d.severity styled
          (toString t.position.line) (Diagnostic.lineText line) (t.position.column - 1)) ∧
        ∀ s, t.kind = .symbol s → (∀ b ∈ line, b < 128) →
          Diagnostic.PointsTo (d.render source false) s.char ∧
            (Diagnostic.lineText line).toList[t.position.column - 1]? = some s.char := by
  refine ⟨Lexer.item_eq { rest := source }, tokenize_eq source, bytes_tokenizeFrom .start source,
    fun t => Token.exists_line, ?_⟩
  intro passes t hreported d hd
  obtain ⟨line, hline, hstands⟩ := Token.exists_line hreported.mem_tokenize
  refine ⟨line, hline, Diagnostic.shows_of_line hd hline, ?_⟩
  intro s hs hascii
  simp only [Token.StandsIn, hs] at hstands
  exact ⟨Diagnostic.pointsTo_of_line hd hline hascii hstands.2,
    Diagnostic.getElem?_lineText hascii hstands.2⟩

/-- A loop end without a start in the second of two lines that end in carriage returns, and a loop
that is dropped, behind a byte that is a comment. -/
theorem positions_agree_of_carriage_returns :
    (parse .all [43, 13, 10, 32, 93, 13, 13, 10] = .error (.unmatchedCloseBracket ⟨2, 2⟩) ∧
      Diagnostic.PointsTo (Diagnostic.render
        { severity := .error, message := "this ] has no matching [", path := "demo",
          position := some ⟨2, 2⟩ }
        [43, 13, 10, 32, 93, 13, 13, 10] false) ']') ∧
    (parse .all [120, 91, 46, 93] = .ok ([], [⟨⟨1, 2⟩⟩]) ∧
      Diagnostic.PointsTo (Diagnostic.render
        { severity := .warning, message := "this loop is never executed", path := "demo",
          position := some ⟨1, 2⟩ }
        [120, 91, 46, 93] false) '[') := by
  have hunmatched : parse .all [43, 13, 10, 32, 93, 13, 13, 10] =
      .error (.unmatchedCloseBracket ⟨2, 2⟩) := rfl
  have hdropped : parse .all [120, 91, 46, 93] = .ok ([], [⟨⟨1, 2⟩⟩]) := rfl
  obtain ⟨-, -, -, -, hend⟩ := positions_agree [43, 13, 10, 32, 93, 13, 13, 10]
  obtain ⟨-, -, -, -, hstart⟩ := positions_agree [120, 91, 46, 93]
  refine ⟨⟨hunmatched, ?_⟩, hdropped, ?_⟩
  · obtain ⟨line, hline, -, hpoints⟩ := hend .all _ (.unmatched hunmatched)
      { severity := .error, message := "this ] has no matching [", path := "demo",
        position := some ⟨2, 2⟩ } rfl
    obtain rfl : [32, 93, 13, 13] = line := Option.some.inj hline
    exact (hpoints .loopEnd rfl (by simp)).1
  · obtain ⟨line, hline, -, hpoints⟩ := hstart .all _ (.dropped hdropped List.mem_cons_self)
      { severity := .warning, message := "this loop is never executed", path := "demo",
        position := some ⟨1, 2⟩ } rfl
    obtain rfl : [120, 91, 46, 93] = line := Option.some.inj hline
    exact (hpoints .loopStart rfl (by simp)).1

end Tapecode
