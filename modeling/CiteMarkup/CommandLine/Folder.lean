import CiteMarkup.Dictionary
import CiteMarkup.Text.Quoted
/-!
# Files of a folder

The program reads and writes files that the command line names by paths.  A path is walked
part by part, from the folder in which the program runs.  What lies outside that folder is
not known here, but for the way there and back: above it there are directories only.
-/

namespace CiteMarkup

/-! ## 1. Faults -/

/-- Why a file cannot be opened. -/
inductive FileFault where
  /-- A part of the path does not exist. -/
  | missing (path : Text)
  /-- The path leads to a directory. -/
  | directory (path : Text)
  /-- The path goes on behind a file. -/
  | noDirectory (path : Text)
  /-- A part of the path is longer than a name can be. -/
  | tooLong (path : Text)
  /-- The path holds the character that ends paths. -/
  | nullCharacter
  deriving DecidableEq, Repr

/-- The fault in words. -/
def FileFault.text : FileFault → Text
  | missing path => "[Errno 2] No such file or directory: ".toList ++ Text.quoted path
  | directory path => "[Errno 21] Is a directory: ".toList ++ Text.quoted path
  | noDirectory path => "[Errno 20] Not a directory: ".toList ++ Text.quoted path
  | tooLong path => "[Errno 36] File name too long: ".toList ++ Text.quoted path
  | nullCharacter => "embedded null byte".toList

/-! ## 2. Walking a path -/

/-- Where a path leads. -/
inductive Place where
  /-- The folder itself. -/
  | folder
  /-- A directory above it. -/
  | above
  /-- A file of the folder. -/
  | file (name : Text)
  deriving DecidableEq, Repr

/-- The files of a folder by name. -/
structure Folder where
  files : Dictionary Text

namespace Folder

/-- The longest name of a file, in bytes. -/
def nameLimit : Nat := 255

/-- A part of a path that stays where it is. -/
def isHere (part : Text) : Bool := part.isEmpty || part = ['.']

/-- The place that one more part of `path` leads to. -/
def step (f : Folder) (path : Text) (place : Place) (part : Text) : Except FileFault Place :=
  match place with
  | .file _ => .error (.noDirectory path)
  | place =>
    if isHere part then .ok place
    else if part = ['.', '.'] then .ok .above
    else if nameLimit < (String.ofList part).utf8ByteSize then .error (.tooLong path)
    else if place = .folder && f.files.has part then .ok (.file part)
    else .error (.missing path)

/-- The place that parts of `path` lead to. -/
def walk (f : Folder) (path : Text) (parts : List Text) : Except FileFault Place :=
  parts.foldlM (f.step path) (if path.head? = some '/' then .above else .folder)

/-- The path, unless no file can have it. -/
def checked (path : Text) : Except FileFault Text :=
  if path.elem (Char.ofNat 0) then .error .nullCharacter
  else if path.isEmpty then .error (.missing path)
  else .ok path

/-! ## 3. Reading and writing -/

/-- The text of a file. -/
def read (f : Folder) (path : Text) : Except FileFault Text := do
  let path ← checked path
  match ← f.walk path (Text.splitAll '/' path) with
  | .file name => return (f.files.get? name).getD []
  | .folder | .above => .error (.directory path)

/-- The folder with a text in a file, which need not exist.  A file above the folder leaves
the folder as it is. -/
def write (f : Folder) (path text : Text) : Except FileFault Folder := do
  let path ← checked path
  let bare : Text := (path.reverse.dropWhile (· = '/')).reverse
  let parts := Text.splitAll '/' bare
  let name := parts.getLast?.getD []
  match ← f.walk path parts.dropLast with
  | .file _ => .error (.noDirectory path)
  | place =>
    if bare.length ≠ path.length || isHere name || name = ['.', '.'] then
      .error (.directory path)
    else if nameLimit < (String.ofList name).utf8ByteSize then .error (.tooLong path)
    else if place = .folder then return ⟨f.files.put name text⟩
    else return f

end Folder
end CiteMarkup
