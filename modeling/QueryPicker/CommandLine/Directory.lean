import QueryPicker.Text.Blank

/-!
# Files by name

A name leads through a directory part by part, with slashes between the parts. An empty part and a
single dot stay where they are, and two dots go back; nothing goes on behind a file. What lies
outside of the directory is not known, and no file is found there. Parts and whole names have a
greatest size in bytes.
-/

namespace QueryPicker.CommandLine

/-- Why there is no text under a name. -/
inductive FileError where
  | missing
  | behindFile
  | directory
  | nameTooLong
  deriving DecidableEq

def FileError.message : FileError → String
  | .missing => "No such file or directory (os error 2)"
  | .behindFile => "Not a directory (os error 20)"
  | .directory => "Is a directory (os error 21)"
  | .nameTooLong => "File name too long (os error 36)"

/-- The texts of files under the parts of their names. -/
abbrev Directory := List (List String × String)

namespace Directory

def nameParts (name : String) : List String :=
  (Text.splitAt '/' name.toList).map String.ofList

def staysPut (part : String) : Bool := part == "" || part == "."

def maxPartSize : Nat := 255

def maxNameSize : Nat := 4095

def ofFiles (files : List (String × String)) : Directory :=
  files.map fun (name, text) => ((nameParts name).filter (!staysPut ·), text)

/-- Where a name has led so far. -/
inductive Place where
  | inside (parts : List String)
  | file (text : String)
  | outside
  deriving DecidableEq

/-- Why nothing is found under a part. -/
def absence (part : String) : FileError :=
  if maxPartSize < part.utf8ByteSize then .nameTooLong else .missing

/-- The place one part further, if the part is no dots. -/
def enter (d : Directory) (parts : List String) (part : String) : Except FileError Place :=
  match d.find? (·.1 == parts ++ [part]) with
  | some (_, text) => .ok (.file text)
  | none =>
    if d.any fun (file, _) => (parts ++ [part]).isPrefixOf file then .ok (.inside (parts ++ [part]))
    else .error (absence part)

def next (d : Directory) : Place → String → Except FileError Place
  | .file _, _ => .error .behindFile
  | .inside parts, part =>
    if staysPut part then .ok (.inside parts)
    else if part = ".." then .ok (if parts.isEmpty then .outside else .inside parts.dropLast)
    else d.enter parts part
  | .outside, part =>
    if staysPut part || part == ".." then .ok .outside else .error (absence part)

/-- The text of a file. An empty name leads nowhere, and one that starts with a slash starts
outside. -/
def read (d : Directory) (name : String) : Except FileError String := do
  if name.isEmpty then throw .missing
  if maxNameSize < name.utf8ByteSize then throw .nameTooLong
  let start := if name.startsWith "/" then Place.outside else .inside []
  match ← (nameParts name).foldlM d.next start with
  | .file text => .ok text
  | _ => .error .directory

end Directory

end QueryPicker.CommandLine
