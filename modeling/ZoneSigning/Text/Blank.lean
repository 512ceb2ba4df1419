/-!
White space as Unicode's `White_Space` property has it: trimming text and cutting it into words.
The functions work on lists of characters; `trim` and `words` bring them to strings.
-/
namespace ZoneSigning.Text

def isBlank (c : Char) : Bool :=
  let n := c.toNat
  (9 ≤ n && n ≤ 13) || n == 0x20 || n == 0x85 || n == 0xA0 || n == 0x1680 ||
    (0x2000 ≤ n && n ≤ 0x200A) || n == 0x2028 || n == 0x2029 || n == 0x202F || n == 0x205F ||
    n == 0x3000

def dropEnd (p : Char → Bool) (cs : List Char) : List Char :=
  (cs.reverse.dropWhile p).reverse

def trimBlank (cs : List Char) : List Char :=
  dropEnd isBlank (cs.dropWhile isBlank)

/-- The maximal runs of characters that are not blank. -/
def splitWords : List Char → List (List Char)
  | [] => []
  | c :: cs =>
    if isBlank c then splitWords cs
    else match cs, splitWords cs with
      | d :: _, w :: ws => if isBlank d then [c] :: w :: ws else (c :: w) :: ws
      | _, ws => [c] :: ws

def trim (s : String) : String := String.ofList (trimBlank s.toList)

def words (s : String) : List String := (splitWords s.toList).map String.ofList

/-- Text with the ASCII capitals made small; other characters stay. -/
def lower (s : String) : String := String.ofList (s.toList.map Char.toLower)

def upper (s : String) : String := String.ofList (s.toList.map Char.toUpper)

end ZoneSigning.Text
