/-! # Words of a text

Words are the longest runs of characters other than Unicode white space, which is a wider class
than the blanks between tokens.
-/
namespace Styling

/-- The Unicode property White_Space. -/
def isWhiteSpace (c : Char) : Bool :=
  let n := c.toNat
  (9 ≤ n && n ≤ 13) || n == 0x20 || n == 0x85 || n == 0xa0 || n == 0x1680 ||
    (0x2000 ≤ n && n ≤ 0x200a) || n == 0x2028 || n == 0x2029 || n == 0x202f || n == 0x205f ||
    n == 0x3000

def consWord (c : Char) (glued : Bool) (ws : List (List Char)) : List (List Char) :=
  match glued, ws with
  | true, w :: rest => (c :: w) :: rest
  | _, _ => [c] :: ws

def wordChars : List Char → List (List Char)
  | [] => []
  | c :: cs =>
    if isWhiteSpace c then wordChars cs
    else consWord c (cs.head?.any (!isWhiteSpace ·)) (wordChars cs)

def words (text : String) : List String := (wordChars text.toList).map String.ofList

end Styling
