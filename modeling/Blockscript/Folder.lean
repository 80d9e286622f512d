/-!
# Files by path

What a path names, seen from a folder that holds plain files only.
-/

namespace Blockscript

/-- What a path leads to. What is there but cannot be read has a reason, in the words of the system. -/
inductive Entry where
  | missing
  | folder
  | unreadable (reason : String)
  | file (bytes : List UInt8)
deriving DecidableEq

/-- The files of a folder by name. -/
structure Folder where
  files : List (String × List UInt8)

namespace Folder

/-- The file of a name, if there is one. -/
def file? (f : Folder) (name : String) : Option (List UInt8) :=
  (f.files.find? (·.1 == name)).map Prod.snd

/-- Follows the steps of a path. Nothing is known of other folders but that those above exist. -/
def walk (f : Folder) (inside : Bool) : List String → Entry
  | [] => .folder
  | step :: rest =>
    if step = "" ∨ step = "." then f.walk inside rest
    else if step = ".." then f.walk false rest
    else match inside, f.file? step, rest with
    | true, some bytes, [] => .file bytes
    | _, _, _ => .missing

/-- The steps of a path, which slashes divide. -/
def steps : List Char → List (List Char)
  | [] => [[]]
  | c :: rest =>
    if c = '/' then [] :: steps rest
    else match steps rest with
    | [] => [[c]]
    | step :: more => (c :: step) :: more

/-- What a path names. The empty path names nothing, and a path from the root leads out of the folder. -/
def entry (f : Folder) (path : String) : Entry :=
  match path.toList with
  | [] => .missing
  | '/' :: rest => f.walk false ((steps rest).map String.ofList)
  | cs => f.walk true ((steps cs).map String.ofList)

end Folder

end Blockscript
