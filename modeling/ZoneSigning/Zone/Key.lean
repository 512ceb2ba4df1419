import ZoneSigning.OrderedMap
import ZoneSigning.Text.Blank
import ZoneSigning.Text.Numeral

/-!
What identifies a zone: its class and its name in canonical form. Keys are ordered by class code
and then by name.
-/
namespace ZoneSigning

/-- A class of domain names, by its code of 16 bits. -/
structure DnsClass where
  code : Nat
deriving DecidableEq, Repr

namespace DnsClass

def internet : DnsClass := ⟨1⟩

def chaos : DnsClass := ⟨3⟩

def hesiod : DnsClass := ⟨4⟩

instance : Inhabited DnsClass := ⟨internet⟩

def text (c : DnsClass) : String :=
  if c = internet then "IN"
  else if c = chaos then "CH"
  else if c = hesiod then "HS"
  else "CLASS" ++ toString c.code

def parse? (s : String) : Option DnsClass :=
  match (Text.upper (Text.trim s)).toList with
  | ['I', 'N'] => some internet
  | ['C', 'H'] => some chaos
  | ['H', 'S'] => some hesiod
  | 'C' :: 'L' :: 'A' :: 'S' :: 'S' :: code => (Text.readNumeral Text.maxHalf code).map DnsClass.mk
  | _ => none

def refusal (s : String) : String := s!"unknown DNS class `{s}`"

end DnsClass

/-- The canonical form of a name: no blanks around it, no dots at its end, no ASCII capitals. The
name of the root is a dot. -/
def normalizeName (name : String) : String :=
  let trimmed := Text.trimBlank name.toList
  if trimmed = ['.'] then "."
  else String.ofList ((Text.dropEnd (· == '.') trimmed).map Char.toLower)

/-- The identity of a zone. -/
structure ZoneKey where
  dnsClass : DnsClass
  name : String
deriving DecidableEq, Repr, Inhabited

namespace ZoneKey

/-- The key of a zone whose name need not be in canonical form. -/
def of (name : String) (dnsClass : DnsClass) : ZoneKey := ⟨dnsClass, normalizeName name⟩

def text (k : ZoneKey) : String := k.name ++ "/" ++ k.dnsClass.text

private def classCode (k : ZoneKey) : Nat := k.dnsClass.code

instance : Ord ZoneKey := ⟨compareLex (compareOn classCode) (compareOn ZoneKey.name)⟩

instance : Std.TransOrd ZoneKey :=
  inferInstanceAs (Std.TransCmp (compareLex (compareOn classCode) (compareOn ZoneKey.name)))

instance : Std.LawfulEqOrd ZoneKey where
  eq_of_compare {a b} h := by
    obtain ⟨hc, hn⟩ := Ordering.then_eq_eq.mp h
    obtain ⟨⟨ca⟩, na⟩ := a
    obtain ⟨⟨cb⟩, nb⟩ := b
    have hc : ca = cb := Std.LawfulEqOrd.eq_of_compare (α := Nat) hc
    have hn : na = nb := Std.LawfulEqOrd.eq_of_compare (α := String) hn
    rw [hc, hn]

end ZoneKey

end ZoneSigning
