import OutOfOrder.Json.Value

/-!
# What numbers and strings stand for

A number is an integer if it is written as one: digits with an optional sign,
and neither a point nor an exponent. The text `-0` stands for a zero that only
a number with a fraction can have, and is not an integer.

A string stands for characters if every escape does. Escapes beyond the first
plane come as a pair of surrogates, and half a pair stands for nothing.
-/

namespace OutOfOrder.Json

def digitsValue? (digits : List Char) : Option Nat :=
  digits.foldlM (fun n c => if c.isDigit then some (10 * n + (c.toNat - '0'.toNat)) else none) 0

/-- The integer that a number is written as. -/
def integer? (digits : List Char) : Option Int :=
  match digits with
  | '-' :: digits => (digitsValue? digits).bind fun n => if n = 0 then none else some (-n)
  | _ => (digitsValue? digits).map Int.ofNat

def hexDigit? (c : Char) : Option Nat :=
  if c.isDigit then some (c.toNat - '0'.toNat)
  else if 'a' ≤ c && c ≤ 'f' then some (c.toNat - 'a'.toNat + 10)
  else if 'A' ≤ c && c ≤ 'F' then some (c.toNat - 'A'.toNat + 10)
  else none

def hexUnit? (a b c d : Char) : Option Nat := do
  return 4096 * (← hexDigit? a) + 256 * (← hexDigit? b) + 16 * (← hexDigit? c) + (← hexDigit? d)

def shortEscape? : Char → Option Char
  | '"' => some '"'
  | '\\' => some '\\'
  | '/' => some '/'
  | 'b' => some '\x08'
  | 'f' => some '\x0c'
  | 'n' => some '\n'
  | 'r' => some '\r'
  | 't' => some '\t'
  | _ => none

def isHighSurrogate (unit : Nat) : Bool := 0xd800 ≤ unit && unit < 0xdc00

def isLowSurrogate (unit : Nat) : Bool := 0xdc00 ≤ unit && unit < 0xe000

/-- The character of a pair of surrogates. -/
def pairChar (high low : Nat) : Char :=
  Char.ofNat (0x10000 + 0x400 * (high - 0xd800) + (low - 0xdc00))

/-- The characters that stand between the quotes of a string; `none` if an
escape stands for none. -/
def characters? : List Char → Option (List Char)
  | [] => some []
  | '\\' :: 'u' :: a :: b :: c :: d :: rest =>
    match hexUnit? a b c d with
    | none => none
    | some unit =>
      if isLowSurrogate unit then none
      else if isHighSurrogate unit then
        match rest with
        | '\\' :: 'u' :: a :: b :: c :: d :: rest =>
          match hexUnit? a b c d with
          | none => none
          | some low =>
            if isLowSurrogate low then (characters? rest).map (pairChar unit low :: ·)
            else none
        | _ => none
      else (characters? rest).map (Char.ofNat unit :: ·)
  | '\\' :: c :: rest =>
    match shortEscape? c with
    | none => none
    | some c => (characters? rest).map (c :: ·)
  | c :: rest => if c == '\\' then none else (characters? rest).map (c :: ·)

def string? (raw : List Char) : Option String := (characters? raw).map String.ofList

/-- The natural number that a value is, below a bound. -/
def Value.natBelow? (bound : Nat) : Value → Option Nat
  | .number digits =>
    match integer? digits with
    | some (.ofNat n) => if n < bound then some n else none
    | _ => none
  | _ => none

/-- The natural number of sixty-four bits that a value is. -/
def Value.word? : Value → Option Nat := Value.natBelow? UInt64.size

/-- The integer of sixty-four bits, one of them its sign, that a value is. -/
def Value.signed? : Value → Option Int
  | .number digits =>
    (integer? digits).filter fun n => Int64.minValue.toInt ≤ n && n ≤ Int64.maxValue.toInt
  | _ => none

def Value.bool? : Value → Option Bool
  | .bool b => some b
  | _ => none

end OutOfOrder.Json
