/-!
Bytes as text. Bytes that are not UTF-8 can still be shown, with a replacement character for each
longest piece that starts a character and does not complete it.
-/
namespace ZoneSigning.Text

/-- How many bytes follow the first byte of a character, and between which bounds the second one
has to lie. -/
def leadByte? (b : Nat) : Option (Nat × Nat × Nat) :=
  if 0xC2 ≤ b && b ≤ 0xDF then some (1, 0x80, 0xBF)
  else if b = 0xE0 then some (2, 0xA0, 0xBF)
  else if b = 0xED then some (2, 0x80, 0x9F)
  else if 0xE1 ≤ b && b ≤ 0xEF then some (2, 0x80, 0xBF)
  else if b = 0xF0 then some (3, 0x90, 0xBF)
  else if 0xF1 ≤ b && b ≤ 0xF3 then some (3, 0x80, 0xBF)
  else if b = 0xF4 then some (3, 0x80, 0x8F)
  else none

/-- A character that has begun: what it is so far, how many bytes are missing, and the bounds of
the next one. -/
structure Partial where
  value : Nat
  missing : Nat
  low : Nat
  high : Nat

def startByte (b : Nat) : Sum Char Partial :=
  if b < 0x80 then .inl (Char.ofNat b)
  else
    match leadByte? b with
    | some (missing, low, high) =>
      let bound := if missing = 1 then 0x20 else if missing = 2 then 0x10 else 0x08
      .inr ⟨b % bound, missing, low, high⟩
    | none => .inl '\uFFFD'

def showBytes (begun : Option Partial) : List Nat → List Char
  | [] => if begun.isSome then ['\uFFFD'] else []
  | b :: rest =>
    let fresh (before : List Char) : List Char :=
      match startByte b with
      | .inl c => before ++ c :: showBytes none rest
      | .inr p => before ++ showBytes (some p) rest
    match begun with
    | none => fresh []
    | some p =>
      if p.low ≤ b && b ≤ p.high then
        let value := p.value * 0x40 + b % 0x40
        if p.missing = 1 then Char.ofNat value :: showBytes none rest
        else showBytes (some ⟨value, p.missing - 1, 0x80, 0xBF⟩) rest
      else fresh ['\uFFFD']

end ZoneSigning.Text
