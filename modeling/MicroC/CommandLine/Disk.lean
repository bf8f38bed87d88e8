import MicroC.CommandLine.Path

/-!
# Files

Files in memory, around a working directory, with the errors that opening a file gives.

A path is followed name by name, and each name but the last must lead to a directory. A slash at the
end asks for a directory. Beside the files there are the directories and the devices that every
system has.

* `Device`: what can be opened like a file and keeps nothing.
* `Disk.walk`: the directory that names lead to.
* `Disk.openToRead`, `Disk.openToWrite`: what a path opens.
-/

namespace MicroC

/-- Why a file cannot be opened, read or written. -/
inductive DiskError
  | noSuchFile
  | noSuchDevice
  | permissionDenied
  | notADirectory
  | isADirectory
  | noSpace
  | nameTooLong
  | outOfMemory
deriving DecidableEq, Repr

namespace DiskError

def message : DiskError → String
  | .noSuchFile => "No such file or directory (os error 2)"
  | .noSuchDevice => "No such device or address (os error 6)"
  | .permissionDenied => "Permission denied (os error 13)"
  | .notADirectory => "Not a directory (os error 20)"
  | .isADirectory => "Is a directory (os error 21)"
  | .noSpace => "No space left on device (os error 28)"
  | .nameTooLong => "File name too long (os error 36)"
  | .outOfMemory => "out of memory"

/-- The error with a given number. -/
def ofNumber? : Nat → Option DiskError
  | 2 => some .noSuchFile
  | 6 => some .noSuchDevice
  | 13 => some .permissionDenied
  | 20 => some .notADirectory
  | 21 => some .isADirectory
  | 28 => some .noSpace
  | 36 => some .nameTooLong
  | _ => none

end DiskError

/-! ## Devices -/

/-- A standard stream of a process. -/
inductive Stream
  | input
  | output
  | errors
deriving DecidableEq, Repr

/-- The stream with a given number. -/
def Stream.ofNumber? : String → Option Stream
  | "0" => some .input
  | "1" => some .output
  | "2" => some .errors
  | _ => none

/-- What can be opened like a file and keeps nothing. -/
inductive Device
  /-- Reads as empty and drops what is written. -/
  | null
  /-- Reads without end and drops what is written. -/
  | endless
  /-- Reads without end and has no space for anything. -/
  | full
  /-- The terminal that controls the process. There is none. -/
  | terminal
  | stream (s : Stream)
deriving DecidableEq, Repr

/-- The device with a given name. -/
def Device.ofName? : String → Option Device
  | "null" => some .null
  | "zero" | "random" | "urandom" => some .endless
  | "full" => some .full
  | "tty" => some .terminal
  | "stdin" => some (.stream .input)
  | "stdout" => some (.stream .output)
  | "stderr" => some (.stream .errors)
  | _ => none

namespace Place

/-- The device at a place. -/
def device? : Place → Option Device
  | ["dev", name] => Device.ofName? name
  | ["proc", "self", "fd", number] => (Stream.ofNumber? number).map .stream
  | _ => none

/-- The directories that every system has. -/
def standardDirectories : List Place :=
  [[], ["bin"], ["boot"], ["dev"], ["dev", "pts"], ["dev", "shm"], ["etc"], ["home"], ["lib"],
    ["media"], ["mnt"], ["opt"], ["proc"], ["proc", "self"], ["proc", "self", "fd"], ["root"], ["run"],
    ["sbin"], ["srv"], ["sys"], ["tmp"], ["usr"], ["var"]]

/-- Why no file can be made at a place. -/
def refusal? : Place → Option DiskError
  | "proc" :: _ => some .noSuchFile
  | "sys" :: _ | "dev" :: "pts" :: _ => some .permissionDenied
  | _ => none

end Place

/-! ## Files -/

/-- Files by their places. -/
structure Disk where
  workingDirectory : Place := ["tmp", "work"]
  files : List (Place × ByteArray) := []

namespace Disk

/-- Files by their paths. -/
def ofPaths (files : List (String × ByteArray)) : Disk :=
  let d : Disk := {}
  { d with files := files.map fun f => (Path.place f.1 d.workingDirectory, f.2) }

/-- Gives a place a content. -/
def put (d : Disk) (p : Place) (content : ByteArray) : Disk :=
  { d with files := (p, content) :: d.files.filter (·.1 != p) }

/-- Whether a place is a directory. The way to a file leads through directories. -/
def isDirectory (d : Disk) (p : Place) : Bool :=
  Place.standardDirectories.contains p || p.isPrefixOf d.workingDirectory
    || d.files.any fun f => p.isPrefixOf f.1

/-- What is at a place. -/
inductive Entry
  | file (content : ByteArray)
  | device (dev : Device)
  | directory
  | missing

/-- What is at a place. -/
def entry (d : Disk) (p : Place) : Entry :=
  match p.device? with
  | some dev => .device dev
  | none =>
    match d.files.lookup p with
    | some content => .file content
    | none => if d.isDirectory p then .directory else .missing

/-- Where a place leads that is a second name of a directory. -/
def target (d : Disk) : Place → Place
  | ["dev", "fd"] => ["proc", "self", "fd"]
  | ["proc", "self", "cwd"] => d.workingDirectory
  | ["proc", "self", "root"] => []
  | p => p

/-- Looks a name up in a directory. -/
def find (d : Disk) (p : Place) (name : String) : Except DiskError (Place × Entry) :=
  if Path.maxNameLength < name.utf8ByteSize then .error .nameTooLong
  else
    let q := d.target (p.next name)
    .ok (q, d.entry q)

/-- Follows names from a directory. Each of them must lead to a directory. -/
def walk (d : Disk) (p : Place) : List String → Except DiskError Place
  | [] => .ok p
  | name :: names =>
    match d.find p name with
    | .error e => .error e
    | .ok (p, .directory) => d.walk p names
    | .ok (_, .file _) | .ok (_, .device _) => .error .notADirectory
    | .ok (_, .missing) => .error .noSuchFile

/-- The directory in which the last name of a path is looked up, and that name. A path without names
is the root. -/
def split (d : Disk) (path : String) : Except DiskError (Place × String) :=
  if path.isEmpty then .error .noSuchFile
  else if Path.maxLength < path.utf8ByteSize then .error .nameTooLong
  else
    match (Path.names path).getLast? with
    | none => .error .isADirectory
    | some name =>
      match d.walk (Path.origin path d.workingDirectory) (Path.names path).dropLast with
      | .error e => .error e
      | .ok p => .ok (p, name)

/-- What a path opens for reading. -/
inductive Source
  | content (bytes : ByteArray)
  | device (dev : Device)

/-- Opens what a path means for reading. -/
def openToRead (d : Disk) (path : String) : Except DiskError Source :=
  match d.split path with
  | .error e => .error e
  | .ok (p, name) =>
    match d.find p name with
    | .error e => .error e
    | .ok (_, .file content) =>
      if Path.namesDirectory path then .error .notADirectory else .ok (.content content)
    | .ok (_, .device dev) =>
      if Path.namesDirectory path then .error .notADirectory else .ok (.device dev)
    | .ok (_, .directory) => .error .isADirectory
    | .ok (_, .missing) => .error .noSuchFile

/-- What a path opens for writing. -/
inductive Sink
  | file (p : Place)
  | device (dev : Device)

/-- Opens what a path means for writing; a file that is missing can be made. A directory cannot be
made this way, so a slash at the end is refused before the last name is looked up. -/
def openToWrite (d : Disk) (path : String) : Except DiskError Sink :=
  match d.split path with
  | .error e => .error e
  | .ok (p, name) =>
    if Path.namesDirectory path then .error .isADirectory
    else
      match d.find p name with
      | .error e => .error e
      | .ok (_, .directory) => .error .isADirectory
      | .ok (_, .device dev) => .ok (.device dev)
      | .ok (q, .file _) => .ok (.file q)
      | .ok (q, .missing) =>
        match q.refusal? with
        | some e => .error e
        | none => .ok (.file q)

/-- The content of the file that a path means. -/
def content? (d : Disk) (path : String) : Option ByteArray :=
  match d.openToRead path with
  | .ok (.content bytes) => some bytes
  | _ => none

end Disk

end MicroC
