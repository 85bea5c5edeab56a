import PinRing.Document.Format
import PinRing.Text.Quoted

/-! What is found under a path, and why a document cannot be read from it. -/

namespace PinRing

/-- What is found under a path. -/
inductive FileContent where
  | missing
  | directory
  /-- The path goes on below a file. -/
  | belowFile
  /-- The path, or a name in it, is longer than any that exists. -/
  | nameTooLong
  /-- A text that is yet to be read as a document. -/
  | text (s : String)
  /-- A document that has been read. -/
  | document (v : Value)

/-- Why there is no document under a path. -/
inductive FileFault where
  | notFound (path : String)
  | isDirectory (path : String)
  | notDirectory (path : String)
  | nameTooLong (path : String)
  /-- The path holds the one character that no path may hold. -/
  | nullCharacter
  | document (f : DocumentFault)
deriving DecidableEq

namespace FileFault

def message : FileFault → String
  | notFound path => "[Errno 2] No such file or directory: " ++ Text.quoted path
  | isDirectory path => "[Errno 21] Is a directory: " ++ Text.quoted path
  | notDirectory path => "[Errno 20] Not a directory: " ++ Text.quoted path
  | nameTooLong path => "[Errno 36] File name too long: " ++ Text.quoted path
  | nullCharacter => "embedded null byte"
  | document f => f.message

/-- A fault of one value, in the path or in the text, where path and text are otherwise in order. -/
def concernsValue : FileFault → Bool
  | nullCharacter => true
  | document (.malformed _) => false
  | document _ => true
  | _ => false

end FileFault

/-- Line breaks of any kind as single line feeds. -/
def plainBreaks : List Char → List Char
  | '\r' :: '\n' :: rest => '\n' :: plainBreaks rest
  | '\r' :: rest => '\n' :: plainBreaks rest
  | c :: rest => c :: plainBreaks rest
  | [] => []

/-- A path that nothing can be under. -/
def Path.hasNull (path : String) : Bool := path.toList.contains '\x00'

/-- The document under a path. -/
def FileContent.read (format : TextFormat) (path : String) (content : FileContent) :
    Except FileFault Value :=
  if Path.hasNull path then .error .nullCharacter
  else
    match content with
    | missing => .error (.notFound path)
    | directory => .error (.isDirectory path)
    | belowFile => .error (.notDirectory path)
    | nameTooLong => .error (.nameTooLong path)
    | document v => .ok v
    | text s => (format.read (String.ofList (plainBreaks s.toList))).mapError .document

end PinRing
