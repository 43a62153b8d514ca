/-
  The data directory of a node: files with text and directories, by name. A name
  inside a further directory has the names of the directories in front, with
  slashes between them.

  A file is replaced as a whole: its new text goes to a temporary file first, which
  then takes the name. Each of the four steps may fail. `faults` says at which step
  the coming replacements fail, one entry for each; without an entry none fails.
-/

namespace Beacon

/-- What a name stands for. -/
inductive Entry where
  | file (text : String)
  | directory
  deriving DecidableEq

/-- The step at which a replacement fails: opening the temporary file, writing it
with only `kept` of the text, flushing it, or giving it the name. -/
inductive WriteFault where
  | opening
  | writing (kept : String)
  | flushing
  | renaming
  deriving DecidableEq

structure Disk where
  entries : List (String × Entry)
  faults : List (Option WriteFault)
  deriving DecidableEq

inductive DiskError where
  | failed
  deriving DecidableEq

namespace Disk

/-- A directory without files, where nothing fails. -/
def empty : Disk := ⟨[], []⟩

def find? (d : Disk) (name : String) : Option Entry :=
  (d.entries.find? (·.1 = name)).map (·.2)

def remove (d : Disk) (name : String) : Disk :=
  { d with entries := d.entries.filter (·.1 ≠ name) }

def put (d : Disk) (name : String) (entry : Entry) : Disk :=
  { d with entries := (name, entry) :: (d.remove name).entries }

/-- All names in ascending order. -/
def names (d : Disk) : List String := (d.entries.map (·.1)).mergeSort (· ≤ ·)

/-- The text of a file, if there is one; a directory cannot be read. -/
def read (d : Disk) (name : String) : Except DiskError (Option String) :=
  match d.find? name with
  | none => .ok none
  | some (.file text) => .ok (some text)
  | some .directory => .error .failed

/-- Writes a file in one step, unless the name is a directory's. -/
def write (d : Disk) (name text : String) : Disk × Except DiskError Unit :=
  if d.find? name = some .directory then (d, .error .failed) else (d.put name (.file text), .ok ())

/-- Makes a directory of the given name parts and every directory in front of it. -/
def makeDirectories (d : Disk) (parts : List String) : Disk × Except DiskError Unit :=
  go d none parts
where
  go (d : Disk) (parent : Option String) : List String → Disk × Except DiskError Unit
    | [] => (d, .ok ())
    | part :: rest =>
      let name := match parent with
        | none => part
        | some p => p ++ "/" ++ part
      match d.find? name with
      | some (.file _) => (d, .error .failed)
      | some .directory => go d (some name) rest
      | none => go (d.put name .directory) (some name) rest

/-- The fault of the next replacement, and the disk for those after it. -/
def nextFault (d : Disk) : Option WriteFault × Disk :=
  (d.faults.headD none, { d with faults := d.faults.tail })

/-- Gives a temporary file its name; a directory keeps the name. -/
def rename (d : Disk) (name temporary text : String) : Disk × Except DiskError Unit :=
  if d.find? name = some .directory then (d, .error .failed)
  else ((d.remove temporary).put name (.file text), .ok ())

/-- Replaces the text of a file by way of a temporary file. A failed replacement
changes the temporary file at most. -/
def replace (d : Disk) (name temporary text : String) : Disk × Except DiskError Unit :=
  let (fault, d) := d.nextFault
  if fault = some .opening ∨ d.find? temporary = some .directory then (d, .error .failed)
  else match fault with
    | some (.writing kept) => (d.put temporary (.file kept), .error .failed)
    | some .flushing => (d.put temporary (.file text), .error .failed)
    | some .renaming => (d.put temporary (.file text), .error .failed)
    | _ => (d.put temporary (.file text)).rename name temporary text

end Disk

end Beacon
