import MicroC.CommandLine.Command
import MicroC.CommandLine.Disk

/-!
# The command in memory

Files and standard streams in memory, for the command to work on. A stream can also be opened by
name: what is written to the standard input that way can be read from it, behind what is there.

* `Memory`: files and standard streams.
* `Memory.system`: access to them.
* `Memory.command`: the command on them.
-/

namespace MicroC

/-- Files, what is unread on the standard input, and what was printed. -/
structure Memory where
  disk : Disk := {}
  input : ByteArray := .empty
  output : String := ""
  errors : String := ""

namespace Memory

/-- Takes all that is left on the standard input. -/
def takeInput (s : Memory) : ByteArray × Memory := (s.input, { s with input := .empty })

/-- Adds a text to a stream. -/
def append (s : Memory) (text : String) : Stream → Memory
  | .input => { s with input := s.input ++ text.toUTF8 }
  | .output => { s with output := s.output ++ text }
  | .errors => { s with errors := s.errors ++ text }

/-- Reads all of a device. What has no end fills the memory. -/
def readDevice (s : Memory) : Device → Except DiskError ByteArray × Memory
  | .null => (.ok .empty, s)
  | .stream .input => (.ok s.takeInput.1, s.takeInput.2)
  | .terminal => (.error .noSuchDevice, s)
  | .endless | .full | .stream .output | .stream .errors => (.error .outOfMemory, s)

/-- Writes a text to a device. An empty text needs no space. -/
def writeDevice (s : Memory) (text : String) : Device → Except DiskError Memory
  | .null | .endless => .ok s
  | .full => if text.isEmpty then .ok s else .error .noSpace
  | .terminal => .error .noSuchDevice
  | .stream stream => .ok (s.append text stream)

/-- Reads all of what a path means. -/
def readFile (s : Memory) (path : String) : Except DiskError ByteArray × Memory :=
  match s.disk.openToRead path with
  | .error e => (.error e, s)
  | .ok (.content bytes) => (.ok bytes, s)
  | .ok (.device dev) => s.readDevice dev

/-- Writes a text to what a path means. -/
def writeFile (s : Memory) (path text : String) : Except DiskError Memory :=
  match s.disk.openToWrite path with
  | .error e => .error e
  | .ok (.file p) => .ok { s with disk := s.disk.put p text.toUTF8 }
  | .ok (.device dev) => s.writeDevice text dev

/-- Access to files and streams in memory. -/
def system : System (StateM Memory) where
  readFile path := modifyGet fun s =>
    match s.readFile path with
    | (.ok bytes, s) => (.ok bytes, s)
    | (.error e, s) => (.error e.message, s)
  writeFile path text := modifyGet fun s =>
    match s.writeFile path text with
    | .ok s => (.ok (), s)
    | .error e => (.error e.message, s)
  readInput := modifyGet takeInput
  print text := modify (append · text .output)
  printError text := modify (append · text .errors)

/-- The command on files and streams in memory: its exit code, and what it leaves behind. -/
def command (s : Memory) (args : List String) : UInt8 × Memory := (MicroC.command system args).run s

end Memory

end MicroC
