import PinRing.Document.Scalar
import PinRing.Document.Token

/-! Documents as text, in block style: one entry or item a line, nested mappings two columns deeper,
lists at the column of their key.  A text stands without quotes where it would be read back as the
same text, and between double quotes where characters of it need escapes; a long text is broken past
the eightieth column. -/

namespace PinRing.Document.Writer

/-- The column past which a text is broken. -/
def width : Nat := 80

def spaces (n : Nat) : String := String.ofList (List.replicate n ' ')

/-- A colon before a space or the end, or a number sign after a space, from some place inside the
text on. -/
def hasMark : List Char → Bool
  | ':' :: rest => rest.head?.all (· = ' ') || hasMark rest
  | ' ' :: '#' :: _ => true
  | _ :: rest => hasMark rest
  | [] => false

/-- A text that would be taken for structure if it were written without quotes. -/
def looksStructural (s : String) : Bool :=
  let cs := s.toList
  let first := cs.head?
  let startsWord := cs.drop 1 |>.head? |>.all (· = ' ')
  first.any ("#,[]\x7b\x7d&*!|>'\"%@`".toList.contains ·) ||
    (first.any ("?:-".toList.contains ·) && startsWord) ||
    cs.take 3 == "---".toList || cs.take 3 == "...".toList ||
    first = some ' ' || cs.getLast? = some ' ' ||
    hasMark (cs.drop 1)

/-- A character of printable ASCII. -/
def isBare (c : Char) : Bool := ' ' ≤ c && c ≤ '~'

/-- A text that stands between double quotes: not all of it is printable, or a space stands beside a
line break. -/
def needsEscapes (s : String) : Bool :=
  let cs := s.toList
  cs.any (fun c => c != '\n' && !isBare c) ||
    (cs.zip cs.tail).any fun (a, b) => (a = ' ' && b = '\n') || (a = '\n' && b = ' ')

/-- A text that is written without quotes. -/
def isPlain (s : String) : Bool :=
  !s.isEmpty && !s.toList.contains '\n' && !Scalar.isAmbiguous s && !looksStructural s

/-- Words and the runs of spaces and of line breaks between them, in order. -/
def pieces (cs : List Char) : List (List Char) :=
  cs.splitBy fun a b => (a == ' ') == (b == ' ') && (a == '\n') == (b == '\n')

/-- Writes pieces from a column on.  A single space past the width is broken, with `indent` spaces
on the next line, except at the ends of the text.  A run of line breaks is one line break more. -/
def fill (indent : Nat) (breaks : Bool) (column : Nat) (first : Bool) : List (List Char) → String
  | [] => ""
  | piece :: rest =>
    if piece == [' '] && breaks && column > width && !first && !rest.isEmpty then
      "\n" ++ spaces indent ++ fill indent breaks indent false rest
    else if piece.head? = some '\n' then
      String.ofList ('\n' :: piece) ++ spaces indent ++ fill indent breaks indent false rest
    else
      String.ofList piece ++ fill indent breaks (column + piece.length) false rest

/-- The text with its single quotes doubled. -/
def doubleQuotes (s : String) : List Char :=
  s.toList.flatMap fun c => if c = '\'' then ['\'', '\''] else [c]

/-- The escape of a character, by a letter or by its code. -/
def escape (c : Char) : List Char :=
  let code (letter : Char) (digits : Nat) : List Char :=
    '\\' :: letter :: (Text.hex digits c.toNat).map Char.toUpper
  match Lexer.escapes.find? (·.2 == c) with
  | some (letter, _) => ['\\', letter]
  | none =>
    if c.toNat < 0x100 then code 'x' 2
    else if c.toNat < 0x10000 then code 'u' 4
    else code 'U' 8

/-- Writes the characters of a text between double quotes from a column on.  Past the width the text
goes on in the next line, before a space or beside an escape; `fresh` is set after an escape. -/
def fillEscaped (indent : Nat) (breaks : Bool) (column : Nat) (first fresh : Bool) :
    List Char → String
  | [] => ""
  | c :: rest =>
    let breaks' := breaks && !first && !rest.isEmpty
    let mark (next : Option Char) : String := if next = some ' ' then "\\" else ""
    let turn (next : Option Char) : String := "\\\n" ++ spaces indent ++ mark next
    if isBare c && c != '\"' && c != '\\' then
      if breaks' && (c = ' ' || fresh) && column > width then
        turn (some c) ++ c.toString ++
          fillEscaped indent breaks (indent + (mark (some c)).length + 1) false false rest
      else
        c.toString ++ fillEscaped indent breaks (column + 1) false false rest
    else
      let column := column + (escape c).length
      if breaks' && column > width + 1 then
        String.ofList (escape c) ++ turn rest.head? ++
          fillEscaped indent breaks (indent + (mark rest.head?).length) false true rest
      else
        String.ofList (escape c) ++ fillEscaped indent breaks column false true rest

/-- A text from a column on, broken with `indent` where `breaks` is set. -/
def writeText (indent : Nat) (breaks : Bool) (column : Nat) (s : String) : String :=
  if needsEscapes s then "\"" ++ fillEscaped indent breaks (column + 1) true false s.toList ++ "\""
  else if isPlain s then fill indent breaks column true (pieces s.toList)
  else "'" ++ fill indent breaks (column + 1) true (pieces (doubleQuotes s)) ++ "'"

def documentNumber : Decimal.Layout :=
  { messageNumber with infinityText := ".inf", nanText := ".nan" }

/-- A scalar from a column on. -/
def writeScalar (indent : Nat) (breaks : Bool) (column : Nat) : Value → String
  | .text s => writeText indent breaks column s
  | .int n => toString n
  | .bool b => if b then "true" else "false"
  | .float x => documentNumber.text (.ofFloat x)
  | _ => "null"

/-- The greatest length of a key that stands on the line of its value. -/
def maxKeyLength : Nat := 122

/-- A key that stands on the line of its value. -/
def isShortKey : Value → Bool
  | .text s =>
    !s.isEmpty && !s.toList.any ("\n\x85\u2028\u2029".toList.contains ·) &&
      s.length ≤ maxKeyLength
  | _ => true

mutual

/-- A value after its key or dash, from a column on, inside a block at `indent`.  In `nested` form a
collection begins on the line of its dash. -/
def writeValue (indent : Nat) (nested : Bool) (column : Nat) : Value → String
  | .list [] => " []\n"
  | .mapping [] => " \x7b\x7d\n"
  | .list (v :: rest) =>
    if nested then " " ++ writeItems (indent + 2) true (v :: rest)
    else "\n" ++ writeItems indent false (v :: rest)
  | .mapping (e :: rest) =>
    if nested then " " ++ writeEntries (indent + 2) true (e :: rest)
    else "\n" ++ writeEntries (indent + 2) false (e :: rest)
  | v => " " ++ writeScalar (indent + 2) true (column + 1) v ++ "\n"

/-- Items, one a line; the first continues a line where `here` is set. -/
def writeItems (indent : Nat) (here : Bool) : List Value → String
  | [] => ""
  | v :: rest =>
    (if here then "" else spaces indent) ++ "-" ++ writeValue indent true (indent + 1) v ++
      writeItems indent false rest

/-- Entries, one a line; the first continues a line where `here` is set.  A key that is long or
empty has a line of its own behind a question mark. -/
def writeEntries (indent : Nat) (here : Bool) : List (Value × Value) → String
  | [] => ""
  | (k, v) :: rest =>
    (if here then "" else spaces indent) ++
      (if isShortKey k then
        let key := writeScalar (indent + 2) false indent k
        key ++ ":" ++ writeValue indent false (indent + key.length + 1) v
      else
        "? " ++ writeScalar (indent + 2) true (indent + 2) k ++ "\n" ++ spaces indent ++ ":" ++
          writeValue indent true (indent + 1) v) ++
      writeEntries indent false rest

end

def write : Value → String
  | .list [] => "[]\n"
  | .mapping [] => "\x7b\x7d\n"
  | .list items => writeItems 0 false items
  | .mapping entries => writeEntries 0 false entries
  | v => writeScalar 0 true 0 v ++ "\n"

end PinRing.Document.Writer
