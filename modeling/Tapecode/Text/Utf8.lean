/-!
# Reading bytes as UTF-8

Source texts are bytes, and only diagnostics show them as text. `Utf8.decode` never fails: each
longest run of bytes that begins a character and cannot be completed becomes one replacement
character, and so does each byte that cannot begin one.
-/

namespace Tapecode.Text.Utf8

/-- The character that stands for bytes which are not UTF-8. -/
def replacement : Char := Char.ofNat 0xFFFD

/-- Where a reader stands between two bytes. -/
inductive State
  /-- Between two characters. -/
  | boundary
  /-- Inside a character: `owed` more bytes are due, the next one lies from `low` to `high`, and the
  bytes so far have the value `value`. -/
  | inside (owed : Nat) (low high : Nat) (value : Nat)

/-- The state and the characters after a byte that follows a boundary. -/
def first (b : Nat) : State × List Char :=
  if b ≤ 0x7F then (.boundary, [Char.ofNat b])
  else if 0xC2 ≤ b ∧ b ≤ 0xDF then (.inside 1 0x80 0xBF (b - 0xC0), [])
  else if b = 0xE0 then (.inside 2 0xA0 0xBF (b - 0xE0), [])
  else if b = 0xED then (.inside 2 0x80 0x9F (b - 0xE0), [])
  else if 0xE1 ≤ b ∧ b ≤ 0xEF then (.inside 2 0x80 0xBF (b - 0xE0), [])
  else if b = 0xF0 then (.inside 3 0x90 0xBF (b - 0xF0), [])
  else if 0xF1 ≤ b ∧ b ≤ 0xF3 then (.inside 3 0x80 0xBF (b - 0xF0), [])
  else if b = 0xF4 then (.inside 3 0x80 0x8F (b - 0xF0), [])
  else (.boundary, [replacement])

/-- The state and the characters after one more byte. A byte that does not continue the character
ends it as incomplete and is read again from the boundary. -/
def next (b : Nat) : State → State × List Char
  | .boundary => first b
  | .inside owed low high value =>
    if low ≤ b ∧ b ≤ high then
      let value := value * 64 + (b - 0x80)
      if owed ≤ 1 then (.boundary, [Char.ofNat value]) else (.inside (owed - 1) 0x80 0xBF value, [])
    else
      let (state, chars) := first b
      (state, replacement :: chars)

/-- The characters of the remaining bytes. -/
def decodeFrom : State → List UInt8 → List Char
  | .boundary, [] => []
  | .inside .., [] => [replacement]
  | state, b :: rest =>
    let (state, chars) := next b.toNat state
    chars ++ decodeFrom state rest

/-- The characters that `bytes` stand for. -/
def decode (bytes : List UInt8) : List Char :=
  decodeFrom .boundary bytes

end Tapecode.Text.Utf8
