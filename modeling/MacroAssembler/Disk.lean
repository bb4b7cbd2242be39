/-
MacroAssembler/Disk.lean

A working directory with the files in it, and what a name leads to.

Every step of a name but the last must lead to a directory.  Above the working
directory there are more directories, up to the root, which is above itself.
Of what they hold nothing is known but what every system has: the directories
`/dev` and `/tmp`, and the null device, which reads as empty and keeps nothing.
-/
import MacroAssembler.FileName

namespace MacroAssembler

/-! ### Spots -/

/-- A directory to count steps from. -/
inductive Base where
  /-- The root of the system. -/
  | root
  /-- The directory so many levels above the working directory. -/
  | above (levels : Nat)
  deriving Repr, DecidableEq

/-- The directory above. -/
def Base.up : Base → Base
  | root => root
  | above levels => above (levels + 1)

/-- A place for a file or a directory: so many steps down from a directory. -/
structure Spot where
  base : Base
  steps : List String
  deriving Repr, DecidableEq

namespace Spot

/-- The place one level up. -/
def up (s : Spot) : Spot :=
  if s.steps.isEmpty then { s with base := s.base.up } else { s with steps := s.steps.dropLast }

/-- The place one step down. -/
def down (s : Spot) (step : String) : Spot := { s with steps := s.steps ++ [step] }

/-- Whether a place is another one or lies above it. -/
def isAbove (s t : Spot) : Bool := s.base == t.base && s.steps.isPrefixOf t.steps

/-- Where a name starts. -/
def startOf (name : String) : Spot :=
  ⟨if FileName.isAbsolute name then .root else .above 0, []⟩

/-- The place of a file of the working directory, by its plain name. -/
def ofFile (name : String) : Spot :=
  ⟨.above 0, (FileName.steps name).filter fun s => !FileName.stays s⟩

end Spot

/-! ### Trees -/

/-- Files by their places.  The directories are those that a file needs, and
those that are always there. -/
structure Disk where
  files : List (Spot × ByteArray) := []

/-- What stands at a place. -/
inductive DiskNode where
  | file (bytes : ByteArray)
  | directory
  /-- Reads as empty, and takes what is written without keeping it. -/
  | nullDevice

namespace Disk

/-- The disk without files. -/
def empty : Disk := {}

/-- What every system has. -/
def standard : List (Spot × DiskNode) :=
  [(⟨.root, ["dev"]⟩, .directory), (⟨.root, ["tmp"]⟩, .directory),
   (⟨.root, ["dev", "null"]⟩, .nullDevice)]

/-- What stands at a place. -/
def node? (d : Disk) (s : Spot) : Option DiskNode :=
  match d.files.lookup s with
  | some bytes => some (.file bytes)
  | none =>
    if s.steps.isEmpty || d.files.any (fun f => s.isAbove f.1) then some .directory
    else standard.lookup s

/-- Bytes of all files. -/
def size (d : Disk) : Nat := d.files.foldr (fun f n => f.2.size + n) 0

/-- Put a file at a place, instead of an earlier one. -/
def put (d : Disk) (s : Spot) (bytes : ByteArray) : Disk :=
  ⟨(s, bytes) :: d.files.filter fun f => f.1 != s⟩

/-- A working directory with files given by name. -/
def ofFiles (files : List (String × ByteArray)) : Disk :=
  files.foldl (fun d f => d.put (Spot.ofFile f.1) f.2) empty

/-- Follow steps from a directory to the place they lead to. -/
def follow (d : Disk) (dir : Spot) : List String → Except FileFault (Spot × DiskNode)
  | [] => .ok (dir, .directory)
  | step :: rest =>
    if FileName.stays step then d.follow dir rest
    else if step = ".." then d.follow dir.up rest
    else if FileName.stepTooLong step then .error .nameTooLong
    else
      match d.node? (dir.down step) with
      | none => .error .missing
      | some .directory => d.follow (dir.down step) rest
      | some node => if rest.isEmpty then .ok (dir.down step, node) else .error .notDirectory

/-- The bytes of a file. -/
def readBytes (d : Disk) (name : String) : Except FileFault ByteArray := do
  match FileName.fault? name with
  | some fault => .error fault
  | none =>
    match ← d.follow (Spot.startOf name) (FileName.steps name) with
    | (_, .file bytes) => return bytes
    | (_, .nullDevice) => return ByteArray.empty
    | (_, .directory) => .error .isDirectory

/-- The text of a file. -/
def read (d : Disk) (name : String) : Except FileFault Text := do
  match String.fromUTF8? (← d.readBytes name) with
  | some s => return s.toList
  | none => .error .notText

/-- Write a file at a step of a directory. -/
def writeAt (d : Disk) (s : Spot) (bytes : ByteArray) : Except FileFault Disk :=
  match d.node? s with
  | some .directory => .error .isDirectory
  | some .nullDevice => .ok d
  | _ => .ok (d.put s bytes)

/-- Write a file.  Its directory must exist.  A name that ends with a slash, `.`
or `..` can only be that of a directory. -/
def write (d : Disk) (name : String) (bytes : ByteArray) : Except FileFault Disk := do
  match FileName.fault? name with
  | some fault => .error fault
  | none =>
    let steps := FileName.steps name
    let core := (steps.reverse.dropWhile (· == "")).reverse
    match core.getLast? with
    | none => .error .isDirectory
    | some last =>
      -- the empty step makes sure that this is a directory
      let (dir, _) ← d.follow (Spot.startOf name) (core.dropLast ++ [""])
      if last = "." ∨ last = ".." ∨ core.length < steps.length then .error .isDirectory
      else if FileName.stepTooLong last then .error .nameTooLong
      else d.writeAt (dir.down last) bytes

/-- The files of a tree as a library, seen from a directory.  Every name that an
include gives is spelled out in some file, so there are fewer names than
bytes. -/
def library (d : Disk) (dir : String) : Library :=
  Library.ofReader (FileName.join dir) d.read (d.size + 1)

end Disk

end MacroAssembler
