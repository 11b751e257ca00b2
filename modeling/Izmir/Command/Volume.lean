import Izmir.Command.Path
import Izmir.Text.Bytes

/-!
# Files

The files that a command can see. Its working directory has directories above it, and the
root directory is there; nothing else is known of what lies around the working directory,
and it is taken to be empty. A file holds bytes, which need not be a text.
-/

namespace Izmir.Command

inductive FileError where
  | missing
  | alreadyExists
  | notADirectory
  | isADirectory
  | nameTooLong
  | notText
  | other (text : String)
  deriving DecidableEq, Repr

def FileError.message : FileError → String
  | missing => "No such file or directory (os error 2)"
  | alreadyExists => "File exists (os error 17)"
  | notADirectory => "Not a directory (os error 20)"
  | isADirectory => "Is a directory (os error 21)"
  | nameTooLong => "File name too long (os error 36)"
  | notText => "stream did not contain valid UTF-8"
  | other text => text

/-- A directory that is always there. -/
inductive Origin where
  | root
  /-- The directory some levels above the working directory. -/
  | above (levels : Nat)
  deriving DecidableEq, Repr

/-- A place for a file or a directory: the names that lead to it from an origin. -/
structure Location where
  origin : Origin
  names : List String
  deriving DecidableEq, Repr

namespace Location

/-- The working directory. -/
def working : Location :=
  ⟨.above 0, []⟩

/-- Where the walk along a path starts. -/
def start (path : String) : Location :=
  if Path.isAbsolute path then ⟨.root, []⟩ else working

def child (loc : Location) (name : String) : Location :=
  { loc with names := loc.names ++ [name] }

/-- The directory above a place. Nothing is above the root. -/
def up (loc : Location) : Location :=
  match loc.origin, loc.names with
  | .root, [] => loc
  | .above n, [] => ⟨.above (n + 1), []⟩
  | _, names => { loc with names := names.dropLast }

/-- Whether the way to a place goes through another one, or ends there. -/
def leadsTo (loc target : Location) : Bool :=
  loc.origin = target.origin && loc.names.isPrefixOf target.names

end Location

structure Volume where
  files : List (Location × List UInt8)
  /-- Directories that may be empty. Those on the way to something need no mention. -/
  directories : List Location
  deriving DecidableEq, Repr

/-- Why a file could not be written, and what the attempt has left. -/
structure WriteError where
  error : FileError
  volume : Volume
  deriving DecidableEq, Repr

inductive Node where
  | file (content : List UInt8)
  | directory
  deriving DecidableEq, Repr

namespace Volume

def empty : Volume :=
  ⟨[], []⟩

/-- What stands at a place. -/
def node? (v : Volume) (loc : Location) : Option Node :=
  match v.files.lookup loc with
  | some content => some (.file content)
  | none =>
    if loc.names = [] || v.directories.any loc.leadsTo || v.files.any (loc.leadsTo ·.1) then
      some .directory
    else none

def isDirectory (v : Volume) (loc : Location) : Bool :=
  v.node? loc = some .directory

/-- Put a file at a place. -/
def put (v : Volume) (loc : Location) (content : List UInt8) : Volume :=
  { v with files := (loc, content) :: v.files.filter (·.1 ≠ loc) }

def addDirectory (v : Volume) (loc : Location) : Volume :=
  { v with directories := loc :: v.directories.erase loc.up }

/-- The place of an entry of a directory, whether or not there is one. -/
def entry (v : Volume) (loc : Location) (name : String) : Except FileError Location :=
  if !v.isDirectory loc then .error .notADirectory
  else if 255 < name.utf8ByteSize then .error .nameTooLong
  else .ok (loc.child name)

/-- Walk to the place that some steps lead to. -/
def walk (v : Volume) : Location → List Step → Except FileError Location
  | loc, [] => .ok loc
  | loc, .here :: rest =>
    if v.isDirectory loc then v.walk loc rest else .error .notADirectory
  | loc, .up :: rest =>
    if v.isDirectory loc then v.walk loc.up rest else .error .notADirectory
  | loc, .into name :: rest => do
    let next ← v.entry loc name
    if (v.node? next).isSome then v.walk next rest else .error .missing

/-- The content of a file. -/
def read (v : Volume) (path : String) : Except FileError (List UInt8) :=
  if !Path.fits path then .error .nameTooLong
  else do
    let loc ← v.walk (.start path) (Path.steps path)
    match v.node? loc with
    | some (.file content) =>
      if Path.endsInSlash path then .error .notADirectory else .ok content
    | some .directory => .error .isADirectory
    | none => .error .missing

/-- A failure after which a volume is left. -/
def orLeave {α : Type} (v : Volume) (attempt : Except FileError α) : Except WriteError α :=
  attempt.mapError fun e => ⟨e, v⟩

/-- Make the directories along a walk, one after the other, where they are missing. Those that
were made stay, also if a further one cannot be made. -/
def makeEach (v : Volume) : Location → List Step → Except WriteError Volume
  | _, [] => .ok v
  | loc, .here :: rest => v.makeEach loc rest
  | loc, .up :: rest => v.makeEach loc.up rest
  | loc, .into name :: rest => do
    let next ← v.orLeave (v.entry loc name)
    match v.node? next with
    | some .directory => v.makeEach next rest
    | some (.file _) => .error ⟨.alreadyExists, v⟩
    | none => (v.addDirectory next).makeEach next rest

/-- Make the directory that a walk ends in, with those that are missing on the way. As
long as nothing is missing, a file on the way is in the way of the whole walk; after that
it is in the way of a directory of its name. -/
def makeDirectories (v : Volume) : Location → List Step → Except WriteError Volume
  | _, [] => .ok v
  | loc, .here :: rest => v.makeDirectories loc rest
  | loc, .up :: rest => v.makeDirectories loc.up rest
  | loc, .into name :: rest => do
    let next ← v.orLeave (v.entry loc name)
    match v.node? next with
    | some .directory => v.makeDirectories next rest
    | some (.file _) => .error ⟨if rest = [] then .alreadyExists else .notADirectory, v⟩
    | none => v.makeEach loc (.into name :: rest)

/-- Make the directory that a path names; the empty path names one that is there. -/
def makePath (v : Volume) (path : String) : Except WriteError Volume :=
  if Path.fits path then v.makeDirectories (.start path) (Path.steps path)
  else .error ⟨.nameTooLong, v⟩

/-- Create a file or replace its content, in a directory that exists. -/
def replace (v : Volume) (path : String) (content : List UInt8) : Except FileError Volume :=
  if !Path.fits path then .error .nameTooLong
  else
    match (Path.steps path).reverse with
    | [] => .error .isADirectory
    | last :: before => do
      let loc ← v.walk (.start path) before.reverse
      if !v.isDirectory loc then .error .notADirectory
      else
        match last with
        | .into name =>
          if Path.endsInSlash path then .error .isADirectory
          else do
            let next ← v.entry loc name
            if v.isDirectory next then .error .isADirectory else .ok (v.put next content)
        | _ => .error .isADirectory

/-- Write a file; directories that are missing on the way to it are made. -/
def write (v : Volume) (path : String) (content : List UInt8) : Except WriteError Volume := do
  let v ← v.makePath (Path.parent path)
  v.orLeave (v.replace path content)

/-- The volume with some texts, given by their paths. -/
def ofFiles (files : List (String × String)) : Volume :=
  ⟨files.map fun (path, content) =>
    ((Path.steps path).foldl
      (fun loc step =>
        match step with
        | .into name => loc.child name
        | _ => loc)
      .working, Text.bytes content.toList), []⟩

/-- The path of a place below the working directory. -/
def pathOf? (loc : Location) : Option String :=
  if loc.origin = .above 0 then some (String.intercalate "/" loc.names) else none

/-- The files below the working directory that are new or have a new content, by their
paths. -/
def changes (before after : Volume) : List (String × List UInt8) :=
  (after.files.filter fun (loc, content) => before.files.lookup loc ≠ some content).filterMap
    fun (loc, content) => (pathOf? loc).map fun path => (path, content)

end Volume

end Izmir.Command
