/-
A directory that is held in memory.

It is a list of paths with what stands there; the directories on the way to a path are
there too.  Reading a path follows it step by step from the directory itself, so that each
way to miss a file has its own fault: nothing stands at a step, a file stands where the
path goes on, or the path ends at a directory.

A path can also lead out of the directory, by a slash in front or by a step up from the
directory itself.  Out there are folders, and nothing that has a name: a named step finds
nothing, so no path comes back in.  A step or a path that is too long, and a NUL in a path,
are faults wherever the path leads.
-/
import StackCalc.Run

namespace StackCalc

/-- What can stand at a path. -/
inductive Entry where
  | file (content : ByteArray)
  | folder

/-- Entries by the steps of their paths. -/
structure Directory where
  entries : List (List String × Entry)

/-- A folder that a path can lead to, by the steps that lead there from the directory
itself if it is inside. -/
inductive Folder where
  | inside (above : List String)
  | outside
deriving DecidableEq, Repr

/-- The folder one step up. -/
def Folder.parent : Folder → Folder
  | inside (step :: rest) => inside (step :: rest).dropLast
  | inside [] => outside
  | outside => outside

namespace Directory

/-- The steps of a path. -/
def steps (path : String) : List String :=
  path.splitOn "/"

/-- The directory with an entry for each path. -/
def ofList (entries : List (String × Entry)) : Directory :=
  ⟨entries.map fun (path, e) => (steps path, e)⟩

/-- What stands at a place inside the directory. -/
def entryAt? (d : Directory) (place : List String) : Option Entry :=
  match d.entries.find? fun (path, _) => path == place with
  | some (_, e) => some e
  | none =>
    if d.entries.any fun (path, _) => place.isPrefixOf path then some .folder else none

/-- The most bytes that one step of a path can have. -/
def stepLimit : Nat := 255

/-- The most bytes that a path can have. -/
def pathLimit : Nat := 4095

/-- Follows the steps of a path from a folder. -/
def follow (d : Directory) : Folder → List String → Except ReadFault ByteArray
  | _, [] => .error .isDirectory
  | folder, step :: rest =>
    if step = "" ∨ step = "." then follow d folder rest
    else if step = ".." then follow d folder.parent rest
    else if stepLimit < step.utf8ByteSize then .error .nameTooLong
    else
      match folder with
      | .outside => .error .notFound
      | .inside above =>
        match d.entryAt? (above ++ [step]) with
        | none => .error .notFound
        | some .folder => follow d (.inside (above ++ [step])) rest
        | some (.file content) => if rest = [] then .ok content else .error .notDirectory

/-- Reads the file at a path.  A path that starts with a slash starts outside. -/
def read (d : Directory) (path : String) : Except ReadFault ByteArray :=
  if path.toList.contains '\x00' then .error .nulInPath
  else if path = "" then .error .notFound
  else if pathLimit < path.utf8ByteSize then .error .nameTooLong
  else
    match steps path with
    | "" :: rest => d.follow .outside rest
    | rest => d.follow (.inside []) rest

end Directory

end StackCalc
