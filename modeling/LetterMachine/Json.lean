import LetterMachine.Value.Text

/-!
# JSON

What is to be written in JSON is handed over as a tree of numbers, lists and maps.  It is up to a
serialiser to make text of it, on one line or with every item on a line of its own.
`Serializer.standard` is a serialiser whose compact text has no blanks, and whose indented text has
two of them for every level.
-/

namespace LetterMachine

/-- Data as they are handed to a serialiser. -/
inductive Datum where
  | integer (number : Int64)
  | float (number : Binary64)
  | list (data : List Datum)
  | map (entries : List (String × Datum))

/-- What makes text of data, or an error message. -/
structure Serializer where
  compact : Datum → Except String String
  indented : Datum → Except String String

/-- How the keys of maps and finite doubles are written. -/
structure Spelling where
  key : String → List Char
  float : Binary64 → List Char

namespace Spelling

/-- There are no numbers in JSON for doubles that are not finite. -/
def double (spelling : Spelling) : Binary64 → List Char
  | .finite negative magnitude => spelling.float (.finite negative magnitude)
  | _ => ['n', 'u', 'l', 'l']

/-- Keys with nothing in them that would have to be escaped, and the shortest digits. -/
def standard : Spelling where
  key := fun key => '"' :: (key.toList ++ ['"'])
  float := Binary64.shortestText Value.jsonStyle

end Spelling

namespace Datum

mutual

/-- The text on one line, without blanks. -/
def compactText (spelling : Spelling) : Datum → List Char
  | .integer number => Decimal.integer number.toInt
  | .float number => spelling.double number
  | .list data => '[' :: ([','].intercalate (compactItems spelling data) ++ [']'])
  | .map entries => '\x7b' :: ([','].intercalate (compactEntries spelling entries) ++ ['\x7d'])

def compactItems (spelling : Spelling) : List Datum → List (List Char)
  | [] => []
  | datum :: data => datum.compactText spelling :: compactItems spelling data

def compactEntries (spelling : Spelling) : List (String × Datum) → List (List Char)
  | [] => []
  | (key, datum) :: entries =>
    (spelling.key key ++ ':' :: datum.compactText spelling) :: compactEntries spelling entries

end

def lineBreak (level : Nat) : List Char :=
  '\n' :: List.replicate (2 * level) ' '

/-- Items between brackets, the last of which has a line of its own if there are any. -/
def enclosed (opening closing : Char) (level : Nat) (items : List (List Char)) : List Char :=
  if items.isEmpty then [opening, closing]
  else opening :: ([','].intercalate items ++ lineBreak level ++ [closing])

mutual

/-- The text with every item on a line of its own, for a datum that stands at a level. -/
def indentedText (spelling : Spelling) (level : Nat) : Datum → List Char
  | .integer number => Decimal.integer number.toInt
  | .float number => spelling.double number
  | .list data => enclosed '[' ']' level (indentedItems spelling (level + 1) data)
  | .map entries => enclosed '\x7b' '\x7d' level (indentedEntries spelling (level + 1) entries)

def indentedItems (spelling : Spelling) (level : Nat) : List Datum → List (List Char)
  | [] => []
  | datum :: data =>
    (lineBreak level ++ datum.indentedText spelling level) :: indentedItems spelling level data

def indentedEntries (spelling : Spelling) (level : Nat) :
    List (String × Datum) → List (List Char)
  | [] => []
  | (key, datum) :: entries =>
    (lineBreak level ++ spelling.key key ++ ':' :: ' ' :: datum.indentedText spelling level) ::
      indentedEntries spelling level entries

end

end Datum

/-- The serialiser that writes standard spelling. -/
def Serializer.standard : Serializer where
  compact := fun datum => .ok (.ofList (datum.compactText .standard))
  indented := fun datum => .ok (.ofList (datum.indentedText .standard 0))

end LetterMachine
