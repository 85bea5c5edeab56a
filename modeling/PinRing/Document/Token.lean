import PinRing.Document.Fault

/-! The tokens of a document text.  Block structure is read off the indentation: a deeper column
opens a block and a shallower one closes it.  A key is recognized by the colon after it, so its
token is put in front of what was read as its text.  Where reading stops short of the end, the last
token says why. -/

namespace PinRing.Document

inductive Token where
  | documentStart
  | documentEnd
  | blockSequence
  | blockMapping
  | blockEnd
  | flowSequence
  | flowSequenceEnd
  | flowMapping
  | flowMappingEnd
  | blockEntry
  | flowEntry
  | key
  | value
  /-- A scalar; a `plain` one stands without quotes. -/
  | scalar (text : String) (plain : Bool)
  /-- No token could be read here. -/
  | broken (f : DocumentFault)
deriving DecidableEq

namespace Lexer

/-- The fault of characters that make up no token. -/
def noToken : DocumentFault := .malformed .tokens

def isBreak (c : Char) : Bool :=
  c = '\n' || c = '\r' || c = '\x85' || c = '\u2028' || c = '\u2029'

/-- A space, a tab, a line break, or the end of the text. -/
def isGap : Option Char → Bool
  | none => true
  | some c => c = ' ' || c = '\t' || isBreak c

/-- One of the characters of a set. -/
def isIn (set : String) : Option Char → Bool
  | none => false
  | some c => set.toList.contains c

/-- A place in the text. -/
structure Cursor where
  rest : List Char
  index : Nat := 0
  line : Nat := 0
  column : Nat := 0

namespace Cursor

def peek (c : Cursor) (k : Nat := 0) : Option Char := c.rest[k]?

def next (c : Cursor) : Cursor :=
  match c.rest with
  | [] => c
  | ch :: rest =>
    let ends := isBreak ch && !(ch = '\r' && rest.head? = some '\n')
    { rest, index := c.index + 1
      line := if ends then c.line + 1 else c.line
      column := if ends then 0 else if ch = '\uFEFF' then c.column else c.column + 1 }

def skip (c : Cursor) : Nat → Cursor
  | 0 => c
  | n + 1 => c.next.skip n

/-- The characters up to the first that fails `p`, and the place there. -/
def takeWhile (c : Cursor) (p : Char → Bool) : List Char × Cursor :=
  let taken := c.rest.takeWhile p
  (taken, c.skip taken.length)

/-- A line break, as it counts in a scalar, and the place after it. -/
def lineBreak? (c : Cursor) : Option (Char × Cursor) :=
  match c.rest with
  | '\r' :: '\n' :: _ => some ('\n', c.skip 2)
  | ch :: _ =>
    if ch = '\u2028' || ch = '\u2029' then some (ch, c.next)
    else if isBreak ch then some ('\n', c.next)
    else none
  | [] => none

/-- A document marker stands here: three dashes or points and a gap. -/
def atMarker (c : Cursor) (mark : Char) : Bool :=
  c.rest.take 3 == [mark, mark, mark] && isGap (c.peek 3)

/-- A document marker of either kind stands here. -/
def atAnyMarker (c : Cursor) : Bool := c.atMarker '-' || c.atMarker '.'

end Cursor

/-- Characters read from a place on, with the place after them. -/
abbrev Scanned := Except DocumentFault (List Char × Cursor)

/-- A text that may turn out to be a key. -/
structure PossibleKey where
  /-- The depth of brackets at which it stands. -/
  depth : Nat
  /-- The number of tokens in front of it. -/
  position : Nat
  /-- It must be a key, since nothing else may begin where it does. -/
  required : Bool
  index : Nat
  line : Nat
  column : Nat

/-- What has been read so far. -/
structure State where
  cursor : Cursor
  tokens : Array Token := #[]
  /-- The number of open brackets. -/
  depth : Nat := 0
  /-- The column of the innermost open block, `-1` outside all. -/
  indent : Int := -1
  /-- The columns of the blocks around it. -/
  outer : List Int := []
  /-- A key may begin here. -/
  keyAllowed : Bool := true
  keys : List PossibleKey := []
  finished : Bool := false

namespace State

def push (s : State) (t : Token) : State := { s with tokens := s.tokens.push t }

/-- Closes blocks from the innermost on while they are deeper than a column. -/
def closeDeeper (s : State) (column : Int) : List Int → State
  | [] => s
  | outer :: rest =>
    if s.indent > column then
      closeDeeper ({ s with indent := outer, outer := rest }.push .blockEnd) column rest
    else
      s

/-- Closes the blocks that are deeper than a column; brackets suspend indentation. -/
def closeBlocks (s : State) (column : Int) : State :=
  if s.depth > 0 then s else s.closeDeeper column s.outer

/-- Opens a block at a column deeper than all open ones. -/
def openBlock (s : State) (column : Int) (t : Token) (position : Nat) : State :=
  if s.indent < column then
    { s with
      outer := s.indent :: s.outer
      indent := column
      tokens := s.tokens.insertIdx! position t }
  else
    s

/-- Drops the possible key at the present depth. -/
def dropKey (s : State) : Except DocumentFault State :=
  if s.keys.any fun k => k.depth == s.depth && k.required then .error noToken
  else .ok { s with keys := s.keys.filter (·.depth != s.depth) }

/-- A possible key lies on another line or too far back. -/
def isStale (s : State) (k : PossibleKey) : Bool :=
  k.line != s.cursor.line || s.cursor.index - k.index > 1024

/-- Drops the possible keys that lie on another line or too far back. -/
def dropStaleKeys (s : State) : Except DocumentFault State :=
  if s.keys.any fun k => s.isStale k && k.required then .error noToken
  else .ok { s with keys := s.keys.filter (!s.isStale ·) }

/-- The tokens that no key can be put in front of any more. -/
def settled (s : State) : List Token :=
  let pending := (s.keys.filter (!s.isStale ·)).map (·.position)
  s.tokens.toList.take (pending.foldl min s.tokens.size)

/-- Remembers that a key may begin here. -/
def saveKey (s : State) : Except DocumentFault State :=
  if s.keyAllowed then do
    let required := s.depth == 0 && s.indent == s.cursor.column
    let s ← s.dropKey
    return { s with
      keys :=
        { depth := s.depth, position := s.tokens.size, required, index := s.cursor.index
          line := s.cursor.line, column := s.cursor.column } :: s.keys }
  else
    .ok s

end State

/-- Passes over spaces, comments and line breaks; after a line break a key may begin.  `fuel` bounds
the number of lines. -/
def skipGap (s : State) : (fuel : Nat) → State
  | 0 => s
  | fuel + 1 =>
    let (_, c) := s.cursor.takeWhile (· = ' ')
    let c := if c.peek = some '#' then (c.takeWhile (!isBreak ·)).2 else c
    match c.lineBreak? with
    | some (_, c) =>
      skipGap { s with cursor := c, keyAllowed := s.keyAllowed || s.depth == 0 } fuel
    | none => { s with cursor := c }

/-- Line breaks between the lines of a quoted scalar, with the blanks around them. -/
def quotedBreaks (c : Cursor) (found : List Char) : (fuel : Nat) → Scanned
  | 0 => .error noToken
  | fuel + 1 =>
    if c.atAnyMarker then .error noToken
    else
      let (_, c) := c.takeWhile fun ch => ch = ' ' || ch = '\t'
      match c.lineBreak? with
      | some (ch, c) => quotedBreaks c (found ++ [ch]) fuel
      | none => .ok (found, c)

/-- What a line fold amounts to: one break alone is a space, and the first of several is left
out. -/
def fold (first : Char) (others : List Char) : List Char :=
  (if first != '\n' then [first] else if others.isEmpty then [' '] else []) ++ others

/-- The characters behind one-letter escapes. -/
def escapes : List (Char × Char) :=
  [('0', '\x00'), ('a', '\x07'), ('b', '\x08'), ('t', '\t'), ('\t', '\t'), ('n', '\n'),
   ('v', '\x0b'), ('f', '\x0c'), ('r', '\r'), ('e', '\x1b'), (' ', ' '), ('\"', '\"'),
   ('\\', '\\'), ('/', '/'), ('N', '\x85'), ('_', '\xa0'), ('L', '\u2028'), ('P', '\u2029')]

/-- The number of hexadecimal digits after an escape letter. -/
def codeLength? : Char → Option Nat
  | 'x' => some 2
  | 'u' => some 4
  | 'U' => some 8
  | _ => none

def isHexDigit (c : Char) : Bool :=
  ('0' ≤ c && c ≤ '9') || ('a' ≤ c && c ≤ 'f') || ('A' ≤ c && c ≤ 'F')

/-- The value of a hexadecimal digit. -/
def hexValue (c : Char) : Nat :=
  if c ≤ '9' then c.toNat - '0'.toNat
  else if 'a' ≤ c then c.toNat - 'a'.toNat + 10
  else c.toNat - 'A'.toNat + 10

/-- The character of a code. -/
def charOf (code : Nat) : Except DocumentFault Char :=
  if code < 0x110000 then .ok (Char.ofNat code)
  else if code < 0x80000000 then .error .noCharacter
  else .error .overflow

/-- The character behind an escape, from the place after the backslash. -/
def escape (c : Cursor) (fuel : Nat) : Scanned :=
  match c.peek with
  | none => .error noToken
  | some ch =>
    match escapes.lookup ch, codeLength? ch with
    | some meant, _ => .ok ([meant], c.next)
    | none, some n =>
      let digits := c.next.rest.take n
      if digits.length == n && digits.all isHexDigit then
        (charOf (digits.foldl (fun v d => v * 16 + hexValue d) 0)).map fun ch =>
          ([ch], c.next.skip n)
      else
        .error noToken
    | none, none =>
      match c.lineBreak? with
      | some (_, c) => quotedBreaks c [] fuel
      | none => .error noToken

/-- The rest of a quoted scalar after what was `found`.  Each turn takes at least one character. -/
def quotedScalar (quote : Char) (c : Cursor) (found : List Char) :
    (fuel : Nat) → Scanned
  | 0 => .error noToken
  | fuel + 1 =>
    match c.peek with
    | none => .error noToken
    | some ch =>
      if ch = quote then
        if quote = '\'' && c.peek 1 = some '\'' then
          quotedScalar quote (c.skip 2) (found ++ ['\'']) fuel
        else .ok (found, c.next)
      else if ch = ' ' || ch = '\t' || isBreak ch then
        let (blanks, c) := c.takeWhile fun ch => ch = ' ' || ch = '\t'
        match c.lineBreak? with
        | some (first, c) => do
          let (others, c) ← quotedBreaks c [] fuel
          quotedScalar quote c (found ++ fold first others) fuel
        | none => quotedScalar quote c (found ++ blanks) fuel
      else if ch = '\\' && quote = '\"' then do
        let (chars, c) ← escape c.next fuel
        quotedScalar quote c (found ++ chars) fuel
      else
        quotedScalar quote c.next (found ++ [ch]) fuel

/-- The characters of a plain scalar up to a gap, a colon before a gap, or a bracket or comma inside
brackets. -/
def plainRun (inFlow : Bool) : List Char → List Char
  | [] => []
  | ch :: rest =>
    if isGap (some ch) then []
    else if ch = ':' && (isGap rest.head? || (inFlow && isIn ",[]\x7b\x7d" rest.head?)) then []
    else if inFlow && isIn ",?[]\x7b\x7d" (some ch) then []
    else ch :: plainRun inFlow rest

/-- Line breaks between the lines of a plain scalar; none if a document marker follows. -/
def plainBreaks (c : Cursor) (found : List Char) : (fuel : Nat) → Option (List Char) × Cursor
  | 0 => (some found, c)
  | fuel + 1 =>
    if c.peek = some ' ' then plainBreaks c.next found fuel
    else
      match c.lineBreak? with
      | none => (some found, c)
      | some (ch, c) =>
        if c.atAnyMarker then (none, c) else plainBreaks c (found ++ [ch]) fuel

/-- The gap after a piece of a plain scalar: what it amounts to, whether it spans lines, and the
place after it. -/
def plainGap (c : Cursor) (fuel : Nat) : List Char × Bool × Cursor :=
  let (blanks, c) := c.takeWhile (· = ' ')
  match c.lineBreak? with
  | none => (blanks, false, c)
  | some (first, c) =>
    if c.atAnyMarker then ([], true, c)
    else
      match plainBreaks c [] fuel with
      | (none, c) => ([], true, c)
      | (some others, c) => (fold first others, true, c)

/-- The rest of a plain scalar after what was `found`, where `gap` stands before the next piece. -/
def plainScalar (inFlow : Bool) (indent : Int) (c : Cursor) (found gap : List Char)
    (crossed : Bool) : (fuel : Nat) → List Char × Bool × Cursor
  | 0 => (found, crossed, c)
  | fuel + 1 =>
    if c.peek = some '#' then (found, crossed, c)
    else
      let piece := plainRun inFlow c.rest
      if piece.isEmpty then (found, crossed, c)
      else
        let found := found ++ gap ++ piece
        let (gap, crossed, c) := plainGap (c.skip piece.length) fuel
        if gap.isEmpty || c.peek = some '#' || (!inFlow && (c.column : Int) < indent) then
          (found, crossed, c)
        else
          plainScalar inFlow indent c found gap crossed fuel

/-- A document marker ends all blocks. -/
def marker (s : State) (t : Token) : Except DocumentFault State := do
  let s ← (s.closeBlocks (-1)).dropKey
  return { s with keyAllowed := false, cursor := s.cursor.skip 3 }.push t

/-- An opening bracket. -/
def openFlow (s : State) (t : Token) : Except DocumentFault State := do
  let s ← s.saveKey
  return { s with depth := s.depth + 1, keyAllowed := true, cursor := s.cursor.next }.push t

/-- A closing bracket. -/
def closeFlow (s : State) (t : Token) : Except DocumentFault State := do
  let s ← s.dropKey
  if s.depth = 0 then throw (.malformed .grammar)
  return { s with depth := s.depth - 1, keyAllowed := false, cursor := s.cursor.next }.push t

/-- A dash or question mark that opens an entry. -/
def openEntry (s : State) (opening t : Token) (keyAllowed : Bool) : Except DocumentFault State := do
  if s.depth == 0 && !s.keyAllowed then throw noToken
  let s := if s.depth == 0 then s.openBlock s.cursor.column opening s.tokens.size else s
  let s ← { s with keyAllowed }.dropKey
  return { s with cursor := s.cursor.next }.push t

/-- A colon.  The possible key in front of it becomes one; without any, the key is empty. -/
def colon (s : State) : Except DocumentFault State := do
  match s.keys.find? (·.depth == s.depth) with
  | some k =>
    let s :=
      { s with
        keys := s.keys.filter (·.depth != s.depth)
        tokens := s.tokens.insertIdx! k.position .key }
    let s := if s.depth == 0 then s.openBlock k.column .blockMapping k.position else s
    return { s with keyAllowed := false, cursor := s.cursor.next }.push .value
  | none =>
    openEntry s .blockMapping .value (s.depth == 0)

/-- A scalar in quotes. -/
def quotedToken (s : State) (quote : Char) (fuel : Nat) : Except DocumentFault State := do
  let s ← s.saveKey
  let (text, cursor) ← quotedScalar quote s.cursor.next [] fuel
  return { s with keyAllowed := false, cursor }.push (.scalar (String.ofList text) false)

/-- A scalar without quotes. -/
def plainToken (s : State) (fuel : Nat) : Except DocumentFault State := do
  let s ← s.saveKey
  let (text, crossed, cursor) := plainScalar (s.depth != 0) (s.indent + 1) s.cursor [] [] false fuel
  return { s with keyAllowed := crossed, cursor }.push (.scalar (String.ofList text) true)

/-- A plain scalar may begin with this character, before `after`. -/
def startsPlain (s : State) (ch : Char) (after : Option Char) : Bool :=
  !(isGap (some ch) || isIn "-?:,[]\x7b\x7d#&*!|>'\"%@`" (some ch)) ||
    (!isGap after && (ch = '-' || (s.depth == 0 && (ch = '?' || ch = ':'))))

/-- The end of the text. -/
def finish (s : State) : Except DocumentFault State := do
  let s ← (s.closeBlocks (-1)).dropKey
  return { s with keyAllowed := false, keys := [], finished := true }

/-- Reads one token, with those that it implies. -/
def step (s : State) (fuel : Nat) : Except DocumentFault State := do
  let s ← (skipGap s fuel).dropStaleKeys
  let s := s.closeBlocks s.cursor.column
  let c := s.cursor
  match c.peek with
  | none => finish s
  | some ch =>
    let after := c.peek 1
    if c.column == 0 && c.atMarker '-' then marker s .documentStart
    else if c.column == 0 && c.atMarker '.' then marker s .documentEnd
    else if ch = '[' then openFlow s .flowSequence
    else if ch = '\x7b' then openFlow s .flowMapping
    else if ch = ']' then closeFlow s .flowSequenceEnd
    else if ch = '\x7d' then closeFlow s .flowMappingEnd
    else if ch = ',' then do
      let s ← { s with keyAllowed := true }.dropKey
      return { s with cursor := c.next }.push .flowEntry
    else if ch = '-' && isGap after then openEntry s .blockSequence .blockEntry true
    else if ch = '?' && (s.depth != 0 || isGap after) then
      openEntry s .blockMapping .key (s.depth == 0)
    else if ch = ':' && (s.depth != 0 || isGap after) then colon s
    else if ch = '\'' || ch = '\"' then quotedToken s ch fuel
    else if startsPlain s ch after then plainToken s fuel
    else throw noToken

/-- Reads tokens up to the end of the text, or up to where no token can be read.  What is not
settled there is left out, since nobody has asked for it yet. -/
def run (s : State) : (fuel : Nat) → List Token
  | 0 => s.settled ++ [.broken noToken]
  | fuel + 1 =>
    match step s (fuel + 1) with
    | .error f => s.settled ++ [.broken f]
    | .ok s => if s.finished then s.tokens.toList else run s fuel

end Lexer

/-- The characters that a document may hold. -/
def isAllowed (c : Char) : Bool :=
  c = '\t' || c = '\n' || c = '\r' || c = '\x85' || (' ' ≤ c && c ≤ '~') ||
    ('\xa0' ≤ c && c.toNat ≤ 0xFFFD) || 0x10000 ≤ c.toNat

/-- The tokens of a text.  Every token takes at least one character. -/
def tokens (text : String) : List Token :=
  let cs := text.toList
  if cs.all isAllowed then
    let rest := if cs.head? = some '\uFEFF' then cs.drop 1 else cs
    Lexer.run { cursor := { rest } } (cs.length + 2)
  else
    [.broken (.malformed .characters)]

end PinRing.Document
