import MicroC.CommandLine.Options

/-!
# The command

What the command does with its arguments, the files and the standard streams. Where these come from
is left open: the command works in any monad that can read and write them.

* `System`: access to files and to the standard streams.
* `command`: the command.
-/

namespace MicroC

/-- Access to the world around the command. Errors are texts. -/
structure System (m : Type → Type) where
  readFile : String → m (Except String ByteArray)
  writeFile : String → String → m (Except String Unit)
  /-- All of the standard input that is left. -/
  readInput : m ByteArray
  /-- Prints a text on the standard output. -/
  print : String → m Unit
  /-- Prints a text on the standard error output. -/
  printError : String → m Unit

namespace Options

/-- What the command says about its version. -/
def version : String := "microc 0.1.0\n"

/-- What the command says about its use. -/
def help : String :=
  "Batch compiler for Micro-C targeting x86-64 assembly\n\n"
    ++ "Usage: microc [OPTIONS] [INPUT]\n\n"
    ++ "Arguments:\n"
    ++ "  [INPUT]  Source file; standard input when omitted or `-` [default: -]\n\n"
    ++ "Options:\n"
    ++ "  -o, --output <FILE>        Write the assembly to FILE instead of standard output\n"
    ++ "      --dump-tokens          Print one line per token after lexing\n"
    ++ "      --dump-ast             Print the syntax tree after parsing\n"
    ++ "      --ascii                Draw the syntax tree with ASCII instead of Unicode\n"
    ++ "      --dump-function-table  Print the function table after semantic analysis\n"
    ++ "      --dump-symbol-table    Print the symbol table after semantic analysis\n"
    ++ "      --dump-type-table      Print the type table after semantic analysis\n"
    ++ "      --no-optimise          Skip the peephole optimiser\n"
    ++ "      --disable <REWRITE>    Disable one optimiser rewrite (repeatable) "
    ++ "[possible values: nop-elimination, push-pop, constant-folding, self-move]\n"
    ++ "      --run                  Execute the program with the built-in interpreter\n"
    ++ "  -h, --help                 Print help\n"
    ++ "  -V, --version              Print version\n"

/-- The dumps of what a compilation found out. -/
def dumpText (o : Options) (c : Compilation) : String :=
  c.tree.getD ""
    ++ (if o.has .dumpFunctionTable then c.analysis.functions.text else "")
    ++ (if o.has .dumpSymbolTable then c.analysis.symbols.text else "")
    ++ if o.has .dumpTypeTable then c.analysis.types.text else ""

end Options

namespace System

variable {m : Type → Type} [Monad m]

/-- Answers arguments that ask for no compilation. -/
def refuse (sys : System m) : Refusal → m UInt8
  | .usage => return 2
  | .help => do
    sys.print Options.help
    return 0
  | .version => do
    sys.print Options.version
    return 0

/-- Reports an error. -/
def fail (sys : System m) (text : String) : m UInt8 := do
  sys.printError text
  return 1

/-- The text of the source. -/
def source (sys : System m) (path : String) : m (Except String String) := do
  let content ← if path = "-" then .ok <$> sys.readInput else sys.readFile path
  return match content with
    | .error e => .error e
    | .ok bytes =>
      match String.fromUTF8? bytes with
      | some text => .ok text
      | none => .error "stream did not contain valid UTF-8"

/-- Puts the assembly where the options want it. The standard output has it only if nothing else is
printed there. -/
def deliver (sys : System m) (o : Options) (c : Compilation) : m (Except String Unit) :=
  match o.output with
  | some path => sys.writeFile path c.assembly
  | none => do
    unless o.dumps || o.has .run do
      sys.print c.assembly
    return .ok ()

/-- Runs a compiled program on the standard input. -/
def execute (sys : System m) (c : Compilation) : m UInt8 := do
  let (result, t) := c.run { input := (← sys.readInput).toList : Terminal }
  sys.print t.output
  match result with
  | .ok _ => return 0
  | .error e => sys.fail e.render

/-- Compiles a source and does with the result what the options ask for. -/
def process (sys : System m) (o : Options) (source : String) : m UInt8 := do
  if o.has .dumpTokens then
    sys.print (tokenDump source)
  match compile source o.compileOptions with
  | .error e => sys.fail (e.render source)
  | .ok c =>
    sys.print (o.dumpText c)
    match ← sys.deliver o c with
    | .error e => sys.fail (e ++ "\n")
    | .ok () => if o.has .run then sys.execute c else return 0

end System

/-- The command with its arguments. The result is its exit code. -/
def command {m : Type → Type} [Monad m] (sys : System m) (args : List String) : m UInt8 := do
  match Options.parse args with
  | .error r => sys.refuse r
  | .ok o =>
    match ← sys.source o.source with
    | .error e => sys.fail s!"{o.source}: {e}\n"
    | .ok source => sys.process o source

end MicroC
