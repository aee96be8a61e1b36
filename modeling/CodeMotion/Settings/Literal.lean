/-! Unsigned number literals: decimal, or with a leading `0x`, `0o`, `0b` or plain `0` for base 16,
8, 2 and 8, in either case. Single underscores may stand between digits and between the base mark
and a digit. The value must be below 2^64. -/

namespace CodeMotion.Literal

def digit? (base : Nat) (c : Char) : Option Nat :=
  let d? :=
    if c.isDigit then some (c.toNat - '0'.toNat)
    else if c.isLower then some (c.toNat - 'a'.toNat + 10)
    else if c.isUpper then some (c.toNat - 'A'.toNat + 10)
    else none
  d?.filter (· < base)

/-- The digits of a text. An underscore must follow a digit, or stand at the start if
`afterDigit` holds, and must be followed by a digit. -/
def digits? (base : Nat) (afterDigit : Bool) : List Char → Option (List Nat)
  | [] => if afterDigit then some [] else none
  | c :: cs =>
    if c = '_' then if afterDigit then digits? base false cs else none
    else do
      let d ← digit? base c
      return d :: (← digits? base true cs)

def ofDigits (base : Nat) (ds : List Nat) : Nat := ds.foldl (fun n d => n * base + d) 0

/-- The base and the digits of a literal; the mark of the base, if any, is not among the digits. -/
def parts? : List Char → Option (Nat × List Nat)
  | '0' :: m :: c :: cs =>
    if m = 'x' ∨ m = 'X' then (digits? 16 true (c :: cs)).map (16, ·)
    else if m = 'o' ∨ m = 'O' then (digits? 8 true (c :: cs)).map (8, ·)
    else if m = 'b' ∨ m = 'B' then (digits? 2 true (c :: cs)).map (2, ·)
    else (digits? 8 true (m :: c :: cs)).map (8, ·)
  | '0' :: cs => (digits? 8 true cs).map (8, ·)
  | cs => (digits? 10 false cs).map (10, ·)

/-- The value of a literal. -/
def value? (s : String) : Option Nat := do
  let (base, ds) ← parts? s.toList
  let n := ofDigits base ds
  if n < UInt64.size then some n else none

end CodeMotion.Literal
