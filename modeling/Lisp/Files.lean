namespace Lisp

inductive FileFault where
  | noSuchFile
  | notDirectory
  | isDirectory
  | nameTooLong
  deriving DecidableEq

def FileFault.message : FileFault → String
  | noSuchFile => "No such file or directory (os error 2)"
  | notDirectory => "Not a directory (os error 20)"
  | isDirectory => "Is a directory (os error 21)"
  | nameTooLong => "File name too long (os error 36)"

abbrev Files := List (String × List UInt8)

/-- Where a path leads. Directories are given by their names from the innermost outwards; nothing
is known of the directories above the working directory. -/
inductive Place where
  | inside (names : List String)
  | above
  | file (bytes : List UInt8)

namespace Place

def maxName : Nat := 255

def maxPath : Nat := 4095

def step (files : Files) (p : Place) (name : String) : Except FileFault Place :=
  match p with
  | file _ => .error .notDirectory
  | above =>
    if name = "" ∨ name = "." ∨ name = ".." then .ok above
    else if name.utf8ByteSize > maxName then .error .nameTooLong
    else .error .noSuchFile
  | inside names =>
    if name = "" ∨ name = "." then .ok (inside names)
    else if name = ".." then .ok (if names = [] then above else inside names.tail)
    else if name.utf8ByteSize > maxName then .error .nameTooLong
    else
      let path := "/".intercalate (name :: names).reverse
      match files.lookup path with
      | some bytes => .ok (file bytes)
      | none =>
        if files.any (fun f => (path ++ "/").toList.isPrefixOf f.1.toList) then
          .ok (inside (name :: names))
        else .error .noSuchFile

def find (files : Files) (path : String) : Except FileFault Place :=
  if path.utf8ByteSize > maxPath then .error .nameTooLong
  else
    let names := (path.toList.splitOn '/').map String.ofList
    names.foldlM (step files) (if path.toList.head? = some '/' then above else inside [])

end Place

def Files.read (files : Files) (path : String) : Except FileFault (List UInt8) :=
  match Place.find files path with
  | .ok (.file bytes) => .ok bytes
  | .ok _ => .error .isDirectory
  | .error f => .error f

end Lisp
