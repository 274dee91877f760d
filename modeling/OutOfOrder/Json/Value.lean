import OutOfOrder.Json.Token

/-!
# The value of a JSON text

Tokens are put together by a machine with a stack of the arrays and objects
that are still open. It takes each token once, so a text of any depth is read
in one pass and in a bounded space of its own.

A value keeps the members of an object in order and keeps those that repeat:
what a repeated name means is for the reader of the object to say.
-/

namespace OutOfOrder.Json

inductive Value
  | null
  | bool (value : Bool)
  | number (digits : List Char)
  | text (raw : List Char)
  | array (items : List Value)
  | object (members : List (List Char × Value))

/-- An array or object that is still open, with what it holds in reverse. An
object waits for the value of `name`. -/
inductive Frame
  | array (items : List Value)
  | object (members : List (List Char × Value)) (name : List Char)

/-- What the tokens read so far allow next. -/
inductive Expected
  | value
  /-- A value, or the end of an array just opened. -/
  | item
  /-- A name, or the end of an object if nothing is in it yet. -/
  | name (members : List (List Char × Value)) (mayClose : Bool)
  | colon (members : List (List Char × Value)) (name : List Char)
  /-- What may follow a value that is complete. -/
  | after (value : Value)

/-- The open arrays and objects, innermost first, and what may come next. -/
structure Builder where
  stack : List Frame := []
  expected : Expected := .value

namespace Builder

def beginValue (stack : List Frame) : Token → Option Builder
  | .null => some ⟨stack, .after .null⟩
  | .bool b => some ⟨stack, .after (.bool b)⟩
  | .number digits => some ⟨stack, .after (.number digits)⟩
  | .text raw => some ⟨stack, .after (.text raw)⟩
  | .leftBracket => some ⟨.array [] :: stack, .item⟩
  | .leftBrace => some ⟨stack, .name [] true⟩
  | _ => none

def step (b : Builder) (token : Token) : Option Builder :=
  match b.expected, b.stack, token with
  | .item, .array items :: stack, .rightBracket => some ⟨stack, .after (.array items.reverse)⟩
  | .item, stack, _ => beginValue stack token
  | .value, stack, _ => beginValue stack token
  | .name members _, stack, .text raw => some ⟨stack, .colon members raw⟩
  | .name members mayClose, stack, .rightBrace =>
    if mayClose then some ⟨stack, .after (.object members.reverse)⟩ else none
  | .colon members name, stack, .colon => some ⟨.object members name :: stack, .value⟩
  | .after v, .array items :: stack, .comma => some ⟨.array (v :: items) :: stack, .value⟩
  | .after v, .array items :: stack, .rightBracket =>
    some ⟨stack, .after (.array (v :: items).reverse)⟩
  | .after v, .object members name :: stack, .comma =>
    some ⟨stack, .name ((name, v) :: members) false⟩
  | .after v, .object members name :: stack, .rightBrace =>
    some ⟨stack, .after (.object ((name, v) :: members).reverse)⟩
  | _, _, _ => none

def result? (b : Builder) : Option Value :=
  match b.stack, b.expected with
  | [], .after v => some v
  | _, _ => none

end Builder

def parse? (s : String) : Option Value := do
  let tokens ← tokens? s
  let b ← tokens.foldlM Builder.step {}
  b.result?

end OutOfOrder.Json
