/-!
# Files

Reading a file by its path, and what can go wrong. Besides the files of the system, a
program can be given a small tree of files held in memory; `FileTree.read` resolves paths
in it as the system does, relative to its root.

## Main definitions

* `ReadFailure`: why a file could not be read.
* `FileTree`: files held in memory.
* `extension`: the part of a path that tells the kind of a file.
-/

namespace StackMachine

/-- Why a file could not be read. -/
inductive ReadFailure where
  /-- There is no such file. -/
  | missing
  /-- The path leads through something that is no directory. -/
  | throughFile
  /-- The path names a directory. -/
  | directory
  /-- The path, or a part of it, is longer than the system allows. -/
  | tooLong
  /-- The system gave another reason. -/
  | other (reason : String)
  deriving DecidableEq, Repr

/-- The wording of a failure to read a path. -/
def ReadFailure.message (path : String) : ReadFailure → String
  | missing => "ENOENT: no such file or directory, open '" ++ path ++ "'"
  | throughFile => "ENOTDIR: not a directory, open '" ++ path ++ "'"
  | directory => "EISDIR: illegal operation on a directory, read"
  | tooLong => "ENAMETOOLONG: name too long, open '" ++ path ++ "'"
  | other reason => reason

/-- The parts of a path, between its slashes. -/
def pathParts : List Char → List (List Char)
  | [] => [[]]
  | '/' :: rest => [] :: pathParts rest
  | c :: rest =>
    match pathParts rest with
    | [] => [[c]]
    | part :: more => (c :: part) :: more

/-- The extension of the last part of a path: what follows its last point, the point
included, unless that point is the first character of the part. -/
def extension (path : String) : String :=
  let last := (pathParts path.toList).getLast?.getD []
  let tail := last.reverse.takeWhile (· != '.')
  if tail.length + 1 < last.length then String.ofList ('.' :: tail.reverse) else ""

/-- Files held in memory, each by the parts of its path below the root. -/
structure FileTree where
  /-- The files with their bytes. -/
  files : List (List String × List UInt8)

namespace FileTree

/-- The place that a part of a path leads to, below the root. -/
def descend (parts : List String) (part : String) : List String :=
  if part == "" || part == "." then parts
  else if part == ".." then parts.dropLast
  else parts ++ [part]

/-- A tree from paths and their contents. Of several contents for a path the last counts. -/
def ofFiles (files : List (String × List UInt8)) : FileTree where
  files := files.reverse.map fun (path, bytes) =>
    (((pathParts path.toList).map String.ofList).foldl descend [], bytes)

/-- How many bytes a part of a path may have. -/
def longestPart : Nat := 255

/-- How many bytes a path may have. -/
def longestPath : Nat := 4095

/-- Where a path has led so far. -/
inductive Place where
  /-- To a directory of the tree. -/
  | inside (parts : List String)
  /-- To a directory above or beside the tree, of which nothing is known. -/
  | outside
  /-- To a file. -/
  | file (bytes : List UInt8)

/-- Goes one part further along a path. -/
def advance (t : FileTree) (part : String) : Place → Except ReadFailure Place
  | .file _ => .error .throughFile
  | .outside =>
    if part == "" || part == "." || part == ".." then .ok .outside else .error .missing
  | .inside parts =>
    if part == "" || part == "." then .ok (.inside parts)
    else if part == ".." then .ok (if parts.isEmpty then .outside else .inside parts.dropLast)
    else if longestPart < part.utf8ByteSize then .error .tooLong
    else
      let parts := parts ++ [part]
      match t.files.find? fun (path, _) => path == parts with
      | some (_, bytes) => .ok (.file bytes)
      | none =>
        if t.files.any fun (path, _) => parts.isPrefixOf path then .ok (.inside parts)
        else .error .missing

/-- The bytes of the file at a path. -/
def read (t : FileTree) (path : String) : Except ReadFailure (List UInt8) :=
  if path.isEmpty then .error .missing
  else if longestPath < path.utf8ByteSize then .error .tooLong
  else do
    let start : Place := if path.toList.head? == some '/' then .outside else .inside []
    let place ← ((pathParts path.toList).map String.ofList).foldlM
      (fun place part => t.advance part place) start
    match place with
    | .file bytes => .ok bytes
    | _ => .error .directory

end FileTree

end StackMachine
