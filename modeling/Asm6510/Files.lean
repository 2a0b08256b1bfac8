import Asm6510.Path

/-!
# Files

* `FileStatus`: what is found at a path.
* `Snapshot`: some files and directories below a start directory, and what is found there.
-/

namespace Asm6510

/-- What is found at a path. -/
inductive FileStatus
  | missing
  /-- A part of the path that should be a directory is none. -/
  | notDirectory
  /-- The path, or a part of it, has more bytes than a file system takes. -/
  | nameTooLong
  /-- The path has a null character, which no file name can have. -/
  | nullInName
  | noAccess
  | directory
  | file (bytes : List UInt8)
deriving DecidableEq, Repr

/-- Whether there is something at the path. -/
def FileStatus.exists : FileStatus → Bool
  | missing => false
  | notDirectory => false
  | nameTooLong => false
  | nullInName => false
  | _ => true

/-- Files and directories by the parts of their paths. A directory has no content of its own. -/
structure Snapshot where
  entries : List (List String × Option (List UInt8))

namespace Snapshot

/-- The snapshot of files and directories by their written paths. -/
def ofList (files : List (String × Option (List UInt8))) : Snapshot :=
  ⟨files.map fun f => ((Path.ofText f.1).parts, f.2)⟩

/-- What is found below the start directory. Parents of entries are directories. -/
def below (s : Snapshot) (parts : List String) : FileStatus :=
  match s.entries.find? fun e => e.1 == parts with
  | some (_, some bytes) => .file bytes
  | some (_, none) => .directory
  | none =>
    if parts.isEmpty || s.entries.any fun e => parts.isPrefixOf e.1 then .directory else .missing

/-- A place that a path leads to: below the start directory, or outside, where nothing is
known. -/
abbrev Spot := Option (List String)

/-- What is found at a place. -/
def atSpot (s : Snapshot) : Spot → FileStatus
  | some parts => s.below parts
  | none => .directory

/-- The bytes that a part of a path may have. -/
def partLimit : Nat := 255

/-- The bytes that a path may have. -/
def pathLimit : Nat := 4095

/-- Goes on along the parts of a path. -/
def follow (s : Snapshot) (here : Spot) : List String → FileStatus
  | [] => s.atSpot here
  | part :: rest =>
    match s.atSpot here with
    | .directory =>
      if part = "" ∨ part = "." then s.follow here rest
      else if part = ".." then
        s.follow (here.bind fun parts => if parts.isEmpty then none else some parts.dropLast) rest
      else if partLimit < part.utf8ByteSize then .nameTooLong
      else
        match here with
        | some parts => s.follow (some (parts ++ [part])) rest
        | none => .missing
    | .file _ => .notDirectory
    | other => other

/-- What is found at a written path. -/
def status (s : Snapshot) (path : String) : FileStatus :=
  let parts := (Text.splitChar '/' path.toList).map String.ofList
  if path.toList.contains '\x00' then .nullInName
  else if path.isEmpty then .missing
  else if pathLimit < path.utf8ByteSize then .nameTooLong
  else if Text.startsWith path "/" then s.follow none parts
  else s.follow (some []) parts

end Snapshot

end Asm6510
