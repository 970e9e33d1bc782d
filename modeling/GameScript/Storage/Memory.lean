import Std.Data.TreeMap
import GameScript.Storage

/-!
# Files in memory

A storage that holds a folder with everything below it. Nothing is known of the world outside the
folder: a path that leaves it finds nothing.
-/

namespace GameScript

/-- A path inside the folder, part by part. -/
abbrev Disk.Address := List String

inductive Disk.Item where
  | file (content : ByteArray)
  | folder

structure Disk where
  /-- The path under which the folder is known. -/
  name : String
  /-- The folder itself has the empty address. -/
  items : Std.TreeMap Disk.Address Disk.Item := ∅

namespace Disk

def empty (name : String) : Disk := { name }

def item? (d : Disk) (a : Address) : Option Item := if a.isEmpty then some .folder else d.items[a]?

def addParents (d : Disk) (a : Address) : Disk :=
  { d with
    items := (List.range (a.length - 1)).foldl
      (fun items n => items.insertIfNew (a.take (n + 1)) .folder) d.items }

def addFolder (d : Disk) (a : Address) : Disk :=
  let d := d.addParents a
  { d with items := d.items.insertIfNew a .folder }

def addFile (d : Disk) (a : Address) (content : ByteArray) : Disk :=
  let d := d.addParents a
  { d with items := d.items.insert a (.file content) }

/-! ### Following paths -/

inductive Place where
  | inside (address : Address)
  | outside
  deriving DecidableEq, Repr

/-- Follow one part of a path. -/
def step (d : Disk) (p : Place) (part : String) : Except AccessError Place :=
  match p with
  | .outside => if part == "" || part == "." || part == ".." then .ok .outside else .error .missing
  | .inside a =>
    match d.item? a with
    | none => .error .missing
    | some (.file _) => .error .notFolder
    | some .folder =>
      if part == "" || part == "." then .ok p
      else if part == ".." then .ok (if a.isEmpty then .outside else .inside a.dropLast)
      else if (d.item? (a ++ [part])).isSome then .ok (.inside (a ++ [part]))
      else .error .missing

def withoutName? (d : Disk) (path : String) : Option String :=
  let name := d.name.toList ++ ['/']
  if name.isPrefixOf path.toList then some (String.ofList (path.toList.drop name.length)) else none

/-- Where a path leads. -/
def follow (d : Disk) (path : String) : Except AccessError Place :=
  if path.isEmpty then .error .missing
  else
    match d.withoutName? path with
    | some rest => (Path.parts rest).foldlM d.step (.inside [])
    | none =>
      if path == d.name then .ok (.inside [])
      else (Path.parts path).foldlM d.step (if Path.isAbsolute path then .outside else .inside [])

/-- What kind of thing stands at a path. -/
def kind? (d : Disk) (path : String) : Option EntryKind :=
  match d.follow path with
  | .error _ => none
  | .ok .outside => some .folder
  | .ok (.inside a) =>
    match d.item? a with
    | none => none
    | some .folder => some .folder
    | some (.file _) => some .file

/-- The address and the content of the file at a path. -/
def file (d : Disk) (path : String) : Except AccessError (Address × ByteArray) :=
  match d.follow path with
  | .error e => .error e
  | .ok .outside => .error .isFolder
  | .ok (.inside a) =>
    match d.item? a with
    | none => .error .missing
    | some .folder => .error .isFolder
    | some (.file content) => .ok (a, content)

def read (d : Disk) (path : String) : Except AccessError String := do
  match String.fromUTF8? (← d.file path).2 with
  | some text => return text
  | none => throw .notText

def write (d : Disk) (path text : String) : Except AccessError Disk := do
  return d.addFile (← d.file path).1 text.toUTF8

/-- The files below a path, by their paths from there. -/
def files (d : Disk) (path : String) : List String :=
  match d.follow path with
  | .ok (.inside a) =>
    d.items.toList.filterMap fun (b, e) =>
      match e with
      | .file _ => if a.isPrefixOf b then some ("/".intercalate (b.drop a.length)) else none
      | .folder => none
  | _ => []

end Disk

instance : Storage (StateM Disk) where
  currentFolder := return (← get).name
  kind? path := return (← get).kind? path
  read path := return (← get).read path
  write path text := do
    match (← get).write path text with
    | .ok d => set d; return .ok ()
    | .error e => return .error e
  files path := return (← get).files path

end GameScript
