import Lox.RuntimeError
import Lox.Text.Utf8
import Std.Data.TreeMap

/-!
A tree of files with a working directory. A path is walked name by name, each but the last of which
has to lead to a directory; it starts at the working directory, or at the root if it begins with a
slash.
-/

namespace Lox

inductive Entry
  | file (bytes : List UInt8)
  | directory
deriving DecidableEq

/-- The names that lead from the root to a directory, the last first. -/
abbrev Directory := List String

/-- Entries by the names that lead to them, joined by slashes. -/
structure Files where
  here : Directory
  entries : Std.TreeMap String Entry

namespace Files

def key (names : List String) : String := "/".intercalate names.reverse

def insert (files : Files) (directory : Directory) (entry : Entry) : Files :=
  match directory with
  | [] => files
  | name :: names =>
      let around := (List.range names.length).foldl
        (fun entries length => entries.insert (key (names.drop length)) .directory)
        files.entries
      { files with entries := around.insert (key (name :: names)) entry }

def empty (here : Directory) : Files :=
  ({ here, entries := {} } : Files).insert here .directory

def entry? (files : Files) (directory : Directory) (name : String) : Option Entry :=
  files.entries[key (name :: directory)]?

def step (files : Files) (directory : Directory) (name : String) : Except HostFault Directory :=
  if name = "" ∨ name = "." then .ok directory
  else if name = ".." then .ok (directory.drop 1)
  else
    match files.entry? directory name with
    | some .directory => .ok (name :: directory)
    | some (.file _) => .error .notDirectory
    | none => .error .notFound

def walk (files : Files) (directory : Directory) : List String → Except HostFault Directory
  | [] => .ok directory
  | name :: names =>
      match files.step directory name with
      | .ok next => files.walk next names
      | .error fault => .error fault

/-- A path taken apart: the directory of its last name, that name, and whether slashes follow it. -/
structure Target where
  directory : Directory
  name : String
  slashed : Bool

def target (files : Files) (path : String) : Except HostFault Target :=
  if path.toList.contains '\x00' then .error .nulInName
  else if path = "" then .error .notFound
  else
    let parts := path.splitOn "/"
    let start := if path.startsWith "/" then [] else files.here
    match parts.reverse.dropWhile (· = "") with
    | [] => .ok ⟨start, ".", true⟩
    | last :: others =>
        match files.walk start others.reverse with
        | .ok directory => .ok ⟨directory, last, parts.getLast? = some ""⟩
        | .error fault => .error fault

def isDots (name : String) : Bool := name = "." || name = ".."

def read (files : Files) (path : String) : Except HostFault (List UInt8) :=
  match files.target path with
  | .error fault => .error fault
  | .ok ⟨directory, name, slashed⟩ =>
      if isDots name then .error .isDirectory
      else
        match files.entry? directory name with
        | some (.file bytes) => if slashed then .error .notDirectory else .ok bytes
        | some .directory => .error .isDirectory
        | none => .error .notFound

def readText (files : Files) (path : String) : Except HostFault String :=
  match files.read path with
  | .error fault => .error fault
  | .ok bytes =>
      match Utf8.decode bytes with
      | .ok text => .ok text
      | .error _ => .error .invalidText

def write (files : Files) (path : String) (bytes : List UInt8) : Except HostFault Files :=
  match files.target path with
  | .error fault => .error fault
  | .ok ⟨directory, name, slashed⟩ =>
      if isDots name ∨ slashed then .error .isDirectory
      else
        match files.entry? directory name with
        | some .directory => .error .isDirectory
        | some (.file _) | none => .ok (files.insert (name :: directory) (.file bytes))

def isFile (files : Files) (path : String) : Bool :=
  match files.read path with
  | .ok _ => true
  | .error _ => false

def add (files : Files) (path : String) (entry : Entry) : Files :=
  files.insert (((path.splitOn "/").filter (· ≠ "")).reverse ++ files.here) entry

def regular (files : Files) : List (String × List UInt8) :=
  files.entries.toList.filterMap fun (path, entry) =>
    match entry, (path.splitOn "/").reverse with
    | .file bytes, name :: directory =>
        if directory = files.here then some (name, bytes) else none
    | _, _ => none

end Files

end Lox
