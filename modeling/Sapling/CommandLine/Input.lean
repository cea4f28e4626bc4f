/-!
# Input

A program is read from standard input or from a file. Files are looked up by path in a tree of
files below a working directory.
-/
namespace Sapling.CommandLine

inductive ReadError where
  | notFound
  | notDirectory
  | isDirectory
  | invalidText
  deriving DecidableEq, Repr

def ReadError.text : ReadError → String
  | .notFound => "No such file or directory (os error 2)"
  | .notDirectory => "Not a directory (os error 20)"
  | .isDirectory => "Is a directory (os error 21)"
  | .invalidText => "stream did not contain valid UTF-8"

def decode (bytes : ByteArray) : Except ReadError String :=
  match String.fromUTF8? bytes with
  | some text => .ok text
  | none => .error .invalidText

/-- The names on a path. A path that ends with a slash ends with an empty name. -/
def pathNames (path : String) : List String :=
  path.splitOn "/"

/-- Empty names and single points on a path lead nowhere. -/
def staysPut (name : String) : Bool :=
  name == "" || name == "."

/-- Whether a path stands for standard input: it begins with the name `-` and leads nowhere from
there. -/
def isStandardInput (path : String) : Bool :=
  match pathNames path with
  | "-" :: rest => rest.all staysPut
  | _ => false

/-- Files by the names on their paths from the working directory. -/
abbrev FileTree := List (List String × ByteArray)

namespace FileTree

def ofFiles (files : List (String × ByteArray)) : FileTree :=
  files.map fun (path, bytes) => (pathNames path, bytes)

def isDirectory (tree : FileTree) (dir : List String) : Bool :=
  dir.isEmpty || tree.any fun (path, _) => dir.isPrefixOf path && dir != path

/-- Follow names from a directory of the tree. Above the working directory nothing is known but
that directories are there. -/
def follow (tree : FileTree) (dir : List String) : List String → Except ReadError ByteArray
  | [] => .error .isDirectory
  | name :: rest =>
    if staysPut name then follow tree dir rest
    else if name = ".." then
      if dir.isEmpty then
        if rest.all (fun name => staysPut name || name == "..") then .error .isDirectory
        else .error .notFound
      else follow tree dir.dropLast rest
    else
      let path := dir ++ [name]
      match tree.lookup path with
      | some bytes => if rest.isEmpty then .ok bytes else .error .notDirectory
      | none => if tree.isDirectory path then follow tree path rest else .error .notFound

def read (tree : FileTree) (path : String) : Except ReadError ByteArray :=
  match pathNames path with
  | "" :: rest =>
    if rest.all (fun name => staysPut name || name == "..") then .error .isDirectory
    else .error .notFound
  | path => tree.follow [] path

end FileTree
end Sapling.CommandLine
