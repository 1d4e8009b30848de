import VeriScript.Text.Lines
import VeriScript.Text.Utf8

/-!
# Files

The files that a run can read and write, as a value.

* `Path` — an absolute path, by its components.
* `Disk` — what is known of the files.  A complete disk says of every path what is there; on any other disk a
  path may be unknown, and an access to it asks for it.
* `Disk.read`, `Disk.write`, `Disk.present` — access by a path as it is written, relative to a directory.
* `absolutePath` — the path that a text denotes, by its spelling alone.
-/

namespace VeriScript

/-- An absolute path, by its components. -/
abbrev Path := List String

def Path.render (p : Path) : String :=
  "/" ++ String.intercalate "/" p

inductive Entry where
  | text (s : String)
  /-- A file that is no text. -/
  | undecodable (fault : Text.Utf8Fault)
  | directory
  deriving Repr

/-- Why an access fails. -/
inductive DiskFault where
  | missing
  | isDirectory
  | notDirectory
  | nameTooLong
  | denied
  deriving DecidableEq, Repr

namespace DiskFault

/-- The reason in words. -/
def reason : DiskFault → String
  | .missing => "No such file or directory"
  | .isDirectory => "Is a directory"
  | .notDirectory => "Not a directory"
  | .nameTooLong => "File name too long"
  | .denied => "Permission denied"

/-- The number that systems give to the reason. -/
def number : DiskFault → Nat
  | .missing => 2
  | .isDirectory => 21
  | .notDirectory => 20
  | .nameTooLong => 36
  | .denied => 13

end DiskFault

structure Disk where
  /-- What is at a path, `none` for nothing; the first entry of a path counts. -/
  entries : List (Path × Option Entry)
  /-- There is nothing at a path without an entry. -/
  complete : Bool
  /-- The files written, the last one first. -/
  written : List Path
  deriving Repr

/-- The outcome of an access that is no success. -/
inductive DiskStop where
  | fault (f : DiskFault)
  /-- What is at the path is not known. -/
  | unknown (p : Path)
  deriving Repr

namespace Disk

/-- The disk of which nothing is known. -/
def unexplored : Disk := ⟨[], false, []⟩

/-- What is at a path. -/
def entry (d : Disk) (p : Path) : Except DiskStop (Option Entry) :=
  match d.entries.find? (·.1 == p) with
  | some (_, e) => .ok e
  | none => if d.complete then .ok none else .error (.unknown p)

/-- The disk once it is known what is at a path. -/
def learn (d : Disk) (p : Path) (e : Option Entry) : Disk :=
  { d with entries := (p, e) :: d.entries }

/-- A path that something can be below. -/
def requireDirectory (d : Disk) (p : Path) : Except DiskStop Unit := do
  match ← d.entry p with
  | some .directory => return
  | some _ => throw (.fault .notDirectory)
  | none => throw (.fault .missing)

/-- Follow components from a path on; all but the last have to be directories. -/
def walk (d : Disk) : Path → List String → Except DiskStop Path
  | p, [] => .ok p
  | p, c :: cs => do
    d.requireDirectory p
    if c = "" ∨ c = "." then d.walk p cs
    else if c = ".." then d.walk p.dropLast cs
    else d.walk (p ++ [c]) cs

end Disk

/-- The components of a path as it is written. -/
def pathComponents (path : String) : List String :=
  (Text.splitOnChar '/' path.toList).map String.ofList

def isAbsolutePath (path : String) : Bool :=
  path.toList.head? == some '/'

/-- Where a path as it is written starts. -/
def pathStart (cwd : Path) (path : String) : Path :=
  if isAbsolutePath path then [] else cwd

/-- The path that a text denotes, by its spelling alone. -/
def absolutePath (cwd : Path) (path : String) : Path :=
  (pathComponents path).foldl
    (fun p c => if c = "" ∨ c = "." then p else if c = ".." then p.dropLast else p ++ [c])
    (pathStart cwd path)

namespace Disk

/-- The path that a text denotes on the disk. -/
def locate (d : Disk) (cwd : Path) (path : String) : Except DiskStop Path :=
  if path = "" then .error (.fault .missing)
  else d.walk (pathStart cwd path) (pathComponents path)

/-- What a file holds: a text with its lines ended in one way, or a fault in its encoding. -/
def read (d : Disk) (cwd : Path) (path : String) : Except DiskStop (Except Text.Utf8Fault String) := do
  match ← d.entry (← d.locate cwd path) with
  | some (.text s) => return .ok (Text.normalizeNewlines s)
  | some (.undecodable fault) => return .error fault
  | some .directory => throw (.fault .isDirectory)
  | none => throw (.fault .missing)

/-- Write a text to a file; the directory of the file has to exist. -/
def write (d : Disk) (cwd : Path) (path : String) (text : String) : Except DiskStop Disk := do
  let comps := pathComponents path
  if path ≠ "" ∧ comps.getLast? = some "" then
    let _ ← d.walk (pathStart cwd path) comps.dropLast
    throw (.fault .isDirectory)
  let p ← d.locate cwd path
  match ← d.entry p with
  | some .directory => throw (.fault .isDirectory)
  | _ => return { d.learn p (some (.text text)) with written := p :: d.written }

/-- There is something at a path; a slash at its end does not ask for a directory. -/
def present (d : Disk) (cwd : Path) (path : String) : Except DiskStop Bool :=
  let comps := (pathComponents path).filter fun c => c ≠ "" ∧ c ≠ "."
  let found : Except DiskStop Bool := do
    let e ← d.entry (← d.walk (pathStart cwd path) comps)
    return e.isSome
  match found with
  | .error (.fault _) => .ok false
  | r => r

end Disk

end VeriScript
