import ZoneSigning.Json.Basic
import ZoneSigning.Text.Numeral

/-!
Reading JSON text. The text is cut into tokens, and the tokens drive a machine that keeps the
arrays and objects it is inside of. The grammar is the strict one: no comments, nothing after the
value, no control characters inside strings.
-/
namespace ZoneSigning.Json

/-- The pieces of a JSON text. A string without a reading is a `text none`. -/
inductive Token where
  | openArray
  | closeArray
  | openObject
  | closeObject
  | colon
  | comma
  | text (s : Option String)
  | scalar (j : Json)

def hexValue? (c : Char) : Option Nat :=
  if c.isDigit then some (c.toNat - 48)
  else if 'a' ≤ c && c ≤ 'f' then some (c.toNat - 87)
  else if 'A' ≤ c && c ≤ 'F' then some (c.toNat - 55)
  else none

def codeUnit? (a b c d : Char) : Option Nat := do
  return ((← hexValue? a) * 16 + (← hexValue? b)) * 256 + ((← hexValue? c) * 16 + (← hexValue? d))

def shortEscape? : Char → Option Char
  | '\"' => some '\"'
  | '\\' => some '\\'
  | '/' => some '/'
  | 'b' => some '\x08'
  | 'f' => some '\x0c'
  | 'n' => some '\n'
  | 'r' => some '\r'
  | 't' => some '\t'
  | _ => none

/-- A string on its way. -/
structure Draft where
  /-- The characters so far, last one first. -/
  done : List Char := []
  /-- The first half of a surrogate pair, if one has just been read. -/
  half : Option Nat := none
  /-- Whether everything so far has a reading. -/
  whole : Bool := true

def Draft.push (t : Draft) (c : Char) : Draft :=
  ⟨c :: t.done, none, t.whole && t.half.isNone⟩

def Draft.pushUnit (t : Draft) (unit : Nat) : Draft :=
  if 0xD800 ≤ unit && unit < 0xDC00 then
    { t with half := some unit, whole := t.whole && t.half.isNone }
  else if 0xDC00 ≤ unit && unit < 0xE000 then
    match t.half with
    | some high =>
      { t with
        done := Char.ofNat (0x10000 + (high - 0xD800) * 0x400 + (unit - 0xDC00)) :: t.done
        half := none }
    | none => { t with whole := false }
  else t.push (Char.ofNat unit)

def Draft.token (t : Draft) : Token :=
  .text (if t.whole && t.half.isNone then some (String.ofList t.done.reverse) else none)

def readText (t : Draft) : List Char → Option (Token × List Char)
  | [] => none
  | '\"' :: rest => some (t.token, rest)
  | '\\' :: 'u' :: a :: b :: c :: d :: rest =>
    match codeUnit? a b c d with
    | some unit => readText (t.pushUnit unit) rest
    | none => none
  | '\\' :: c :: rest =>
    match shortEscape? c with
    | some c => readText (t.push c) rest
    | none => none
  | c :: rest => if c.toNat < 0x20 then none else readText (t.push c) rest

/-- A numeral on its way: the digits that fit into 64 bits and the place they stand at. -/
structure Significand where
  digits : Nat := 0
  place : Int := 0

def Significand.whole (s : Significand) (c : Char) : Significand :=
  let next := s.digits * 10 + Text.digitValue c
  if s.place = 0 && next ≤ Text.maxLong then { s with digits := next }
  else { s with place := s.place + 1 }

def Significand.fraction (s : Significand) : List Char → Significand
  | [] => s
  | c :: cs =>
    let next := s.digits * 10 + Text.digitValue c
    if next ≤ Text.maxLong then Significand.fraction ⟨next, s.place - 1⟩ cs else s

/-- A numeral that is not a whole number in range: the nearest double, if there is one. -/
def ofDecimal (negative : Bool) (digits : Nat) (exponent : Int) : Json :=
  match Binary64.ofDecimal negative digits exponent with
  | some x => .real x
  | none => .unreadable

/-- A numeral without point and exponent. What fits is an integer of 64 bits, signed if negative;
minus zero is not an integer. -/
def ofWhole (negative : Bool) (s : Significand) : Json :=
  if s.place ≠ 0 then ofDecimal negative s.digits s.place
  else if !negative then .int s.digits
  else if 0 < s.digits && 2 * s.digits ≤ Text.maxLong + 1 then .int (-s.digits)
  else ofDecimal true s.digits 0

def readExponent (cs : List Char) : Option (Int × List Char) :=
  let (negative, cs) := match cs with
    | '+' :: rest => (false, rest)
    | '-' :: rest => (true, rest)
    | _ => (false, cs)
  let digits := cs.takeWhile Char.isDigit
  if digits.isEmpty then none
  else
    let n : Int := Text.ofDigits digits
    some (if negative then -n else n, cs.dropWhile Char.isDigit)

def readNumber (negative : Bool) (cs : List Char) : Option (Token × List Char) := do
  let digits := cs.takeWhile Char.isDigit
  let rest := cs.dropWhile Char.isDigit
  if digits.isEmpty || (digits.length > 1 && digits.head? == some '0') then none
  let whole := digits.foldl Significand.whole {}
  let (fraction, rest) ← match rest with
    | '.' :: after =>
      let places := after.takeWhile Char.isDigit
      if places.isEmpty then none else some (some places, after.dropWhile Char.isDigit)
    | _ => some (none, rest)
  let (exponent, rest) ← match rest with
    | 'e' :: after | 'E' :: after => (readExponent after).map fun (e, r) => (some e, r)
    | _ => some (none, rest)
  let value := match fraction, exponent with
    | none, none => ofWhole negative whole
    | places, e =>
      let s := whole.fraction (places.getD [])
      ofDecimal negative s.digits (s.place + e.getD 0)
  return (.scalar value, rest)

def readToken : List Char → Option (Token × List Char)
  | '[' :: rest => some (.openArray, rest)
  | ']' :: rest => some (.closeArray, rest)
  | '\x7b' :: rest => some (.openObject, rest)
  | '\x7d' :: rest => some (.closeObject, rest)
  | ':' :: rest => some (.colon, rest)
  | ',' :: rest => some (.comma, rest)
  | '\"' :: rest => readText {} rest
  | 'n' :: 'u' :: 'l' :: 'l' :: rest => some (.scalar .null, rest)
  | 't' :: 'r' :: 'u' :: 'e' :: rest => some (.scalar (.bool true), rest)
  | 'f' :: 'a' :: 'l' :: 's' :: 'e' :: rest => some (.scalar (.bool false), rest)
  | '-' :: rest => readNumber true rest
  | cs => readNumber false cs

def isBlank (c : Char) : Bool := c == ' ' || c == '\n' || c == '\r' || c == '\t'

def tokens : Nat → List Char → List Token → Option (List Token)
  | 0, cs, done => if cs.all isBlank then some done.reverse else none
  | fuel + 1, cs, done =>
    match cs.dropWhile isBlank with
    | [] => some done.reverse
    | cs => do
      let (t, rest) ← readToken cs
      tokens fuel rest (t :: done)

/-- An array or object that is still open. Items and members are kept in reverse. -/
inductive Frame where
  | array (items : List Json)
  | object (members : List (String × Json)) (keysRead : Bool) (key : Option String)

/-- What may come next. -/
inductive Expected where
  | value
  | itemOrEnd
  | key
  | keyOrEnd
  | colon
  | separator
deriving DecidableEq

/-- The machine: what is open, innermost first, what may come next, and the finished value. -/
structure Machine where
  frames : List Frame := []
  expected : Expected := .value
  result : Option Json := none

def Machine.complete (m : Machine) (j : Json) : Option Machine :=
  match m.frames with
  | [] => some { m with expected := .separator, result := some j }
  | .array items :: rest =>
    some { m with frames := .array (j :: items) :: rest, expected := .separator }
  | .object members keysRead key :: rest =>
    let frame := match key with
      | some k => Frame.object ((k, j) :: members) keysRead none
      | none => Frame.object members false none
    some { m with frames := frame :: rest, expected := .separator }

def Machine.close (m : Machine) (j : Json) (outer : List Frame) : Option Machine :=
  { m with frames := outer }.complete (if outer.length < depthLimit then j else .unreadable)

def Machine.step (m : Machine) (t : Token) : Option Machine :=
  match t, m.expected, m.frames with
  | .scalar j, .value, _ | .scalar j, .itemOrEnd, _ => m.complete j
  | .text s, .value, _ | .text s, .itemOrEnd, _ => m.complete (s.elim .unreadable .text)
  | .openArray, .value, _ | .openArray, .itemOrEnd, _ =>
    some { m with frames := .array [] :: m.frames, expected := .itemOrEnd }
  | .openObject, .value, _ | .openObject, .itemOrEnd, _ =>
    some { m with frames := .object [] true none :: m.frames, expected := .keyOrEnd }
  | .closeArray, .itemOrEnd, .array items :: rest
  | .closeArray, .separator, .array items :: rest => m.close (.array items.reverse) rest
  | .closeObject, .keyOrEnd, .object members keysRead _ :: rest
  | .closeObject, .separator, .object members keysRead _ :: rest =>
    m.close (if keysRead then .object members.reverse else .unreadable) rest
  | .text s, .key, .object members keysRead _ :: rest
  | .text s, .keyOrEnd, .object members keysRead _ :: rest =>
    some { m with frames := .object members keysRead s :: rest, expected := .colon }
  | .colon, .colon, _ => some { m with expected := .value }
  | .comma, .separator, .array _ :: _ => some { m with expected := .value }
  | .comma, .separator, .object .. :: _ => some { m with expected := .key }
  | _, _, _ => none

def Machine.run (m : Machine) : List Token → Option Machine
  | [] => some m
  | t :: ts => (m.step t).bind (Machine.run · ts)

/-- Read a text that holds exactly one value. -/
def parse? (s : String) : Option Json := do
  let cs := s.toList
  let m ← Machine.run {} (← tokens cs.length cs [])
  if m.frames.isEmpty then m.result else none

end ZoneSigning.Json
