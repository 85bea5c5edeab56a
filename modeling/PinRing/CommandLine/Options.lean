import PinRing.Text.Digit

/-! The grammar of a command line.  Long options may be cut short as long as they stay distinct, a
value may be joined to its option, short options without a value may be joined to one another, and
two dashes end the options. -/

namespace PinRing.CommandLine

variable {ι : Type}

/-- An option with its spellings. -/
structure OptionForm (ι : Type) where
  id : ι
  short : Option Char := none
  long : String
  takesValue : Bool := false

/-- The command line does not follow the grammar. -/
structure Misuse where
deriving DecidableEq

/-- An option with its value, if it has one yet. -/
abbrev Given (ι : Type) := OptionForm ι × Option String

/-- What an argument is by its form. -/
inductive Argument (ι : Type) where
  | word (text : String)
  /-- Two dashes. -/
  | separator
  /-- Options, unless something other than an option is joined to one that takes no value. -/
  | options (found : Except Misuse (List (Given ι)))
  | unknown

def OptionForm.longText (f : OptionForm ι) : String := "--" ++ f.long

def shortForm? (forms : List (OptionForm ι)) (letter : Char) : Option (OptionForm ι) :=
  forms.find? (·.short == some letter)

/-- An option with what an equals sign joins to it, if anything. -/
def joinedOption (form : OptionForm ι) (joined : Option String) :
    Except Misuse (List (Given ι)) :=
  if joined.isSome && !form.takesValue then .error {} else .ok [(form, joined)]

/-- A short option with the letters that follow it: its value if it takes one, and more options
otherwise. -/
def shortOptions (forms : List (OptionForm ι)) (form : OptionForm ι) :
    List Char → Except Misuse (List (Given ι))
  | [] => .ok [(form, none)]
  | letter :: rest =>
    if form.takesValue then .ok [(form, some (String.ofList (letter :: rest)))]
    else
      match shortForm? forms letter with
      | none => .error {}
      | some next => (shortOptions forms next rest).map ((form, none) :: ·)

/-- A minus before digits, with or without a point among them.  A line break may follow. -/
def isNegativeNumber (text : String) : Bool :=
  let isDigit (c : Char) : Bool := (Text.digitValue? c).isSome
  match text.toList with
  | '-' :: rest =>
    let rest := if rest.getLast? = some '\n' then rest.dropLast else rest
    (!rest.isEmpty && rest.all isDigit) ||
      match rest.dropWhile isDigit with
      | '.' :: fraction => !fraction.isEmpty && fraction.all isDigit
      | _ => false
  | _ => false

/-- The text before the first equals sign, and the text after it. -/
def splitValue (text : String) : String × Option String :=
  let cs := text.toList
  let name := cs.takeWhile (· != '=')
  (String.ofList name,
    if name.length = cs.length then none else some (String.ofList (cs.drop (name.length + 1))))

/-- The argument that begins with two dashes and more.  A name that several long options begin with
is a misuse at once. -/
def classifyLong (forms : List (OptionForm ι)) (text : String) :
    Except Misuse (Option (Argument ι)) :=
  let (name, joined) := splitValue text
  match forms.find? (·.longText == name) with
  | some f => .ok (some (.options (joinedOption f joined)))
  | none =>
    match forms.filter (·.longText.startsWith name) with
    | [] => .ok none
    | [f] => .ok (some (.options (joinedOption f joined)))
    | _ => .error {}

/-- The argument that begins with one dash and a letter.  An equals sign right after the letter is
passed over, but something has to follow it where the option takes no value. -/
def classifyShort (forms : List (OptionForm ι)) (letter : Char) (rest : List Char) :
    Option (Argument ι) :=
  (shortForm? forms letter).map fun form =>
    match rest with
    | '=' :: joined =>
      if form.takesValue || joined.isEmpty then
        .options (joinedOption form (some (String.ofList joined)))
      else
        .options (shortOptions forms form joined)
    | _ => .options (shortOptions forms form rest)

/-- What an argument is.  A negative number and a text with a space are words. -/
def classify (forms : List (OptionForm ι)) (text : String) : Except Misuse (Argument ι) := do
  let found ← match text.toList with
    | '-' :: '-' :: _ => classifyLong forms text
    | '-' :: letter :: rest => pure (classifyShort forms letter rest)
    | _ => return .word text
  match found with
  | some argument => return argument
  | none =>
    if isNegativeNumber text || text.toList.contains ' ' then return .word text
    else return .unknown

/-- The arguments of a command line; after two dashes all are words. -/
def classifyAll (forms : List (OptionForm ι)) : List String → Except Misuse (List (Argument ι))
  | [] => .ok []
  | "--" :: rest => .ok (.separator :: rest.map .word)
  | text :: rest => do
    let argument ← classify forms text
    let others ← classifyAll forms rest
    return argument :: others

/-- The value that a text gives.  Two dashes give none, even where a value is expected. -/
def valueOf? (text : String) : Option String :=
  if text = "--" then none else some text

/-- What a command line says. -/
structure Reading (ι : Type) where
  /-- The options in order, with the texts given to them. -/
  options : List (ι × Option String) := []
  /-- The words in order; a word that gives no value holds its place. -/
  words : List (Option String) := []
  /-- An argument had no place. -/
  leftOver : Bool := false

/-- Adds the options of one argument. -/
def Reading.take (r : Reading ι) (given : List (Given ι)) : Reading ι :=
  { r with options := r.options ++ given.map fun (form, value) => (form.id, value) }

/-- The options but the last, and the last if it still needs a value. -/
def lacking? (given : List (Given ι)) : Option (List (Given ι) × OptionForm ι) :=
  match given.getLast? with
  | some (last, none) => if last.takesValue then some (given.dropLast, last) else none
  | _ => none

/-- The first option for which `stops` holds. -/
def stop? (stops : ι → Option String → Bool) (given : List (Given ι)) : Option ι :=
  (given.find? fun (form, value) => stops form.id value).map (·.1.id)

/-- What the argument before has to do with the present one. -/
inductive Before where
  | nothing
  /-- A word that has its place. -/
  | word
  /-- Two dashes that go with the word after them. -/
  | dashes
deriving DecidableEq

/-- Reads arguments in order, up to the first option for which `stops` holds or the first misuse;
`count` words have a place.  An option that needs a value takes the word that follows.  Two dashes
go with the word right before them, or else with the word right after them, which then gives a value
even if it is two dashes itself. -/
def readArguments (stops : ι → Option String → Bool) (count : Nat) (reading : Reading ι)
    (before : Before) : List (Argument ι) → Except Misuse (Reading ι × Option ι)
  | [] => .ok (reading, none)
  | .word text :: rest =>
    if reading.words.length < count then
      let value := if before = .dashes then some text else valueOf? text
      readArguments stops count { reading with words := reading.words ++ [value] } .word rest
    else
      readArguments stops count { reading with leftOver := true } .nothing rest
  | .separator :: rest =>
    if before = .word then readArguments stops count reading .nothing rest
    else if !rest.isEmpty && reading.words.length < count then
      readArguments stops count reading .dashes rest
    else
      readArguments stops count { reading with leftOver := true } .nothing rest
  | .unknown :: rest => readArguments stops count { reading with leftOver := true } .nothing rest
  | .options (.error m) :: _ => .error m
  | .options (.ok given) :: rest =>
    match lacking? given, rest with
    | some (others, last), .word value :: rest =>
      let given := others ++ [(last, some value)]
      match stop? stops given with
      | some id => .ok (reading, some id)
      | none => readArguments stops count (reading.take given) .nothing rest
    | some _, _ => .error {}
    | none, rest =>
      match stop? stops given with
      | some id => .ok (reading, some id)
      | none => readArguments stops count (reading.take given) .nothing rest

end PinRing.CommandLine
