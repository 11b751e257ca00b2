import Izmir.Text.Lines

/-!
# Paths

A path is a text of pieces with slashes between them. An empty piece says nothing, and
a piece `.` stays in place.
-/

namespace Izmir.Command

/-- One step of a walk through directories. -/
inductive Step where
  | here
  | up
  | into (name : String)
  deriving DecidableEq, Repr

namespace Path

def isAbsolute (path : String) : Bool :=
  path.toList.head? = some '/'

def endsInSlash (path : String) : Bool :=
  path.toList.getLast? = some '/'

/-- Whether a path is short enough to be followed at all. The limit is in bytes. -/
def fits (path : String) : Bool :=
  path.utf8ByteSize < 4096

def step? (piece : List Char) : Option Step :=
  if piece = [] then none
  else if piece = ['.'] then some .here
  else if piece = ['.', '.'] then some .up
  else some (.into (String.ofList piece))

/-- All steps of a path. -/
def steps (path : String) : List Step :=
  (Text.pieces '/' path.toList).filterMap step?

/-- The steps of a path that tell it from others: a step in place counts only at the start
of a relative path. -/
def components (path : String) : Bool × List Step :=
  match isAbsolute path, steps path with
  | false, .here :: rest => (false, .here :: rest.filter (· ≠ .here))
  | absolute, steps => (absolute, steps.filter (· ≠ .here))

/-- A piece that leads nowhere. -/
def isIdle (piece : List Char) : Bool :=
  piece = [] || piece = ['.']

/-- The path without its last piece and the idle pieces around it. It is empty when the
walk starts in the directory it names. -/
def parent (path : String) : String :=
  let before := ((Text.pieces '/' path.toList).reverse.dropWhile isIdle).tail
  String.ofList (List.intercalate ['/'] (before.dropWhile isIdle).reverse)

end Path

end Izmir.Command
