import Styling.Numeral.Shortest
import Styling.Text.Hex

/-! # Data in JSON

Values and their text. A number that is not whole is a floating-point word; JSON has no number
for an infinite one. The text of a value is set out over lines, two blanks deeper on each level;
only what has no items stays on its line.
-/
namespace Styling

inductive Json
  | null
  | bool (value : Bool)
  | nat (value : Nat)
  | real (word : Nat)
  | string (value : String)
  | list (items : List Json)
  /-- Fields in the order in which they are written. -/
  | record (fields : List (String × Json))

namespace Json

def tagged (name : String) (value : Json) : Json := record [(name, value)]

def ofOption {α : Type} (f : α → Json) : Option α → Json
  | none => null
  | some a => f a

/-- Numbers between `10 ^ -5` and `10 ^ 16` are written positionally. -/
def layout : Shortest.Layout := ⟨-5, 16⟩

def realText (word : Nat) : String :=
  if word % Binary.signBit < Binary.infinity then Shortest.text layout word else "null"

def charText (c : Char) : List Char :=
  if c == '"' || c == '\\' then ['\\', c]
  else if c == '\n' then ['\\', 'n']
  else if c == '\r' then ['\\', 'r']
  else if c == '\t' then ['\\', 't']
  else if c == '\x08' then ['\\', 'b']
  else if c == '\x0c' then ['\\', 'f']
  else if c.toNat < 32 then ['\\', 'u'] ++ hexPadded 4 c.toNat
  else [c]

def quoted (s : String) : String := String.ofList ('"' :: s.toList.flatMap charText ++ ['"'])

def lineStart (depth : Nat) : String := String.ofList ('\n' :: List.replicate (2 * depth) ' ')

def bracketed (opening closing : String) (depth : Nat) : List String → String
  | [] => opening ++ closing
  | items =>
    opening ++ lineStart (depth + 1) ++ ("," ++ lineStart (depth + 1)).intercalate items ++
      lineStart depth ++ closing

mutual

def textAt (depth : Nat) : Json → String
  | null => "null"
  | bool value => toString value
  | nat value => toString value
  | real word => realText word
  | string value => quoted value
  | list items => bracketed "[" "]" depth (itemTexts (depth + 1) items)
  | record fields => bracketed "\x7b" "\x7d" depth (fieldTexts (depth + 1) fields)

def itemTexts (depth : Nat) : List Json → List String
  | [] => []
  | item :: rest => textAt depth item :: itemTexts depth rest

def fieldTexts (depth : Nat) : List (String × Json) → List String
  | [] => []
  | (name, value) :: rest => (quoted name ++ ": " ++ textAt depth value) :: fieldTexts depth rest

end

def text (j : Json) : String := textAt 0 j

def insertField (field : String × Json) : List (String × Json) → List (String × Json)
  | [] => [field]
  | f :: rest => if field.1 < f.1 then field :: f :: rest else f :: insertField field rest

mutual

def sorted : Json → Json
  | list items => list (sortedItems items)
  | record fields => record (sortedFields fields)
  | j => j

def sortedItems : List Json → List Json
  | [] => []
  | item :: rest => sorted item :: sortedItems rest

def sortedFields : List (String × Json) → List (String × Json)
  | [] => []
  | (name, value) :: rest => insertField (name, sorted value) (sortedFields rest)

end

end Json
end Styling
