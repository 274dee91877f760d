/-!
# The words of a JSON text

A JSON text is read in two steps: characters are gathered into tokens, and
tokens into a value. This file does the first. The reader goes over the text
once, one character at a time, and its mode says what the characters before
have begun; a number is the only token whose end is seen by the character
after it.

Numbers and strings are kept as they are written. Whether the digits of a
number fit a type and whether the escapes of a string stand for characters is
asked only of those that are used.
-/

namespace OutOfOrder.Json

inductive Token
  | leftBrace | rightBrace | leftBracket | rightBracket | colon | comma
  | null
  | bool (value : Bool)
  /-- A number as it is written. -/
  | number (digits : List Char)
  /-- What is written between the quotes of a string. -/
  | text (raw : List Char)
  deriving DecidableEq

/-- How far a number has got. -/
inductive NumberPart
  | sign
  /-- A single zero before the point. -/
  | zero
  | whole
  | point
  | fraction
  /-- The letter of an exponent. -/
  | mark
  | markSign
  | exponent
  deriving DecidableEq

namespace NumberPart

/-- The part begun by a number's first character. -/
def start? (c : Char) : Option NumberPart :=
  if c == '-' then some sign
  else if c == '0' then some zero
  else if c.isDigit then some whole
  else none

/-- The part that a further character leads to, if it belongs to the number. -/
def next? (c : Char) : NumberPart → Option NumberPart
  | sign => if c == '0' then some zero else if c.isDigit then some whole else none
  | zero => if c == '.' then some point else if c == 'e' || c == 'E' then some mark else none
  | whole =>
    if c.isDigit then some whole
    else if c == '.' then some point
    else if c == 'e' || c == 'E' then some mark
    else none
  | point => if c.isDigit then some fraction else none
  | fraction =>
    if c.isDigit then some fraction
    else if c == 'e' || c == 'E' then some mark
    else none
  | mark =>
    if c.isDigit then some exponent
    else if c == '+' || c == '-' then some markSign
    else none
  | markSign => if c.isDigit then some exponent else none
  | exponent => if c.isDigit then some exponent else none

def isComplete : NumberPart → Bool
  | zero | whole | fraction | exponent => true
  | _ => false

end NumberPart

/-- What the characters read so far have begun. -/
inductive Mode
  | between
  /-- A word of which `rest` is still to come. -/
  | word (rest : List Char) (token : Token)
  /-- A number, with its characters in reverse. -/
  | number (part : NumberPart) (digits : List Char)
  /-- A string, with its characters in reverse. -/
  | text (raw : List Char)
  | escape (raw : List Char)
  | hex (digits : Nat) (raw : List Char)

/-- The four characters that may stand between tokens. -/
def isBlank (c : Char) : Bool := c == ' ' || c == '\t' || c == '\n' || c == '\r'

def isHexDigit (c : Char) : Bool :=
  c.isDigit || ('a' ≤ c && c ≤ 'f') || ('A' ≤ c && c ≤ 'F')

/-- Characters that may follow a backslash, `u` apart. -/
def isShortEscape (c : Char) : Bool := ['"', '\\', '/', 'b', 'f', 'n', 'r', 't'].contains c

def beginToken (c : Char) : Option (Mode × List Token) :=
  if isBlank c then some (.between, [])
  else
    match c with
    | '\x7b' => some (.between, [.leftBrace])
    | '\x7d' => some (.between, [.rightBrace])
    | '[' => some (.between, [.leftBracket])
    | ']' => some (.between, [.rightBracket])
    | ':' => some (.between, [.colon])
    | ',' => some (.between, [.comma])
    | '"' => some (.text [], [])
    | 'n' => some (.word ['u', 'l', 'l'] .null, [])
    | 't' => some (.word ['r', 'u', 'e'] (.bool true), [])
    | 'f' => some (.word ['a', 'l', 's', 'e'] (.bool false), [])
    | _ => (NumberPart.start? c).map fun part => (.number part [c], [])

def Mode.step (mode : Mode) (c : Char) : Option (Mode × List Token) :=
  match mode with
  | between => beginToken c
  | word [] _ => none
  | word [last] token => if c == last then some (between, [token]) else none
  | word (next :: rest) token => if c == next then some (word rest token, []) else none
  | number part digits =>
    match part.next? c with
    | some part => some (number part (c :: digits), [])
    | none =>
      if part.isComplete then
        (beginToken c).map fun (mode, tokens) => (mode, .number digits.reverse :: tokens)
      else none
  | text raw =>
    if c == '"' then some (between, [.text raw.reverse])
    else if c == '\\' then some (escape (c :: raw), [])
    else if c < ' ' then none
    else some (text (c :: raw), [])
  | escape raw =>
    if c == 'u' then some (hex 4 (c :: raw), [])
    else if isShortEscape c then some (text (c :: raw), [])
    else none
  | hex digits raw =>
    if !isHexDigit c then none
    else if digits ≤ 1 then some (text (c :: raw), [])
    else some (hex (digits - 1) (c :: raw), [])

/-- The token that the end of the text completes, if there is one. -/
def Mode.finish? : Mode → Option (List Token)
  | between => some []
  | number part digits => if part.isComplete then some [.number digits.reverse] else none
  | _ => none

/-- A text being read: its mode, and the tokens so far in reverse. -/
structure Scanner where
  mode : Mode := .between
  tokens : List Token := []

namespace Scanner

def step (s : Scanner) (c : Char) : Option Scanner :=
  (s.mode.step c).map fun (mode, tokens) => ⟨mode, tokens.reverseAux s.tokens⟩

def finish? (s : Scanner) : Option (List Token) :=
  s.mode.finish?.map fun tokens => s.tokens.reverseAux tokens

end Scanner

/-- The tokens of a text; `none` if some part of it is no token. -/
def tokens? (s : String) : Option (List Token) :=
  (s.toList.foldlM Scanner.step {}).bind Scanner.finish?

end OutOfOrder.Json
