import MicroC.Compilation

/-!
# Command line options

What the arguments of the command ask for. Options may stand in any order around the input; each may
be given once, but reductions can be disabled one by one.

* `Options.parse`: the options that arguments spell.
-/

namespace MicroC

/-- An option without a value. -/
inductive Flag
  | dumpTokens
  | dumpAst
  | ascii
  | dumpFunctionTable
  | dumpSymbolTable
  | dumpTypeTable
  | noOptimise
  | run
deriving DecidableEq, Repr

/-- The flag with a given name. -/
def Flag.ofName? : String → Option Flag
  | "dump-tokens" => some .dumpTokens
  | "dump-ast" => some .dumpAst
  | "ascii" => some .ascii
  | "dump-function-table" => some .dumpFunctionTable
  | "dump-symbol-table" => some .dumpSymbolTable
  | "dump-type-table" => some .dumpTypeTable
  | "no-optimise" => some .noOptimise
  | "run" => some .run
  | _ => none

/-- A reduction of the optimiser by its name. -/
inductive ReductionName
  | nopElimination
  | pushPop
  | constantFolding
  | selfMove
deriving DecidableEq, Repr

namespace ReductionName

/-- The reduction with a given name. -/
def ofName? : String → Option ReductionName
  | "nop-elimination" => some .nopElimination
  | "push-pop" => some .pushPop
  | "constant-folding" => some .constantFolding
  | "self-move" => some .selfMove
  | _ => none

/-- Takes a reduction out. -/
def disable (rs : Reductions) : ReductionName → Reductions
  | .nopElimination => { rs with nops := false }
  | .pushPop => { rs with pushPops := false }
  | .constantFolding => { rs with constants := false }
  | .selfMove => { rs with selfMoves := false }

end ReductionName

/-- What the arguments ask for. -/
structure Options where
  /-- The source file; a dash is the standard input. -/
  input : Option String := none
  /-- Where the assembler text goes. -/
  output : Option String := none
  flags : List Flag := []
  disabled : List ReductionName := []
deriving DecidableEq, Repr

/-- Why no compilation takes place. -/
inductive Refusal
  /-- The arguments make no sense. -/
  | usage
  /-- Only help was asked for. -/
  | help
  /-- Only the version was asked for. -/
  | version
deriving DecidableEq, Repr

namespace Options

def has (o : Options) (f : Flag) : Bool := o.flags.contains f

/-- The source file that is meant. -/
def source (o : Options) : String := o.input.getD "-"

/-- Whether something is dumped in place of the assembler text. -/
def dumps (o : Options) : Bool :=
  o.has .dumpTokens || o.has .dumpAst || o.has .dumpFunctionTable || o.has .dumpSymbolTable
    || o.has .dumpTypeTable

/-- How to compile. -/
def compileOptions (o : Options) : CompileOptions where
  optimise := !o.has .noOptimise
  reductions := o.disabled.foldl ReductionName.disable .all
  treeStyle :=
    if o.has .dumpAst then some (if o.has .ascii then .ascii else .unicode) else none

/-! ## Single options -/

/-- Sets a flag once. -/
def addFlag (o : Options) (f : Flag) : Except Refusal Options :=
  if o.has f then .error .usage else .ok { o with flags := f :: o.flags }

/-- Names the source once. -/
def addInput (o : Options) (file : String) : Except Refusal Options :=
  if o.input.isSome then .error .usage else .ok { o with input := some file }

/-- Options with a value. -/
inductive Valued
  | output
  | disable
deriving DecidableEq, Repr

/-- Gives an option its value. -/
def addValue (o : Options) (v : Valued) (value : String) : Except Refusal Options :=
  match v with
  | .output =>
    if o.output.isSome || value.isEmpty then .error .usage else .ok { o with output := some value }
  | .disable =>
    match ReductionName.ofName? value with
    | some r => .ok { o with disabled := o.disabled ++ [r] }
    | none => .error .usage

/-- An option that starts with two dashes, and the value behind an equals sign. -/
def splitLong (cs : List Char) : String × Option String :=
  match cs.dropWhile (· != '=') with
  | [] => (String.ofList cs, none)
  | _ :: value => (String.ofList (cs.takeWhile (· != '=')), some (String.ofList value))

/-- What an argument is. -/
inductive Word
  /-- Two dashes: what follows is no option. -/
  | escape
  | flag (f : Flag)
  /-- An option with its value attached, or with the value to come. -/
  | valued (v : Valued) (value : Option String)
  | positional (text : String)
  | refused (r : Refusal)

/-- The meaning of an option that starts with two dashes. -/
def longWord (cs : List Char) : Word :=
  match splitLong cs with
  | ("output", value) => .valued .output value
  | ("disable", value) => .valued .disable value
  | ("help", none) => .refused .help
  | ("version", none) => .refused .version
  | (name, none) => match Flag.ofName? name with
    | some f => .flag f
    | none => .refused .usage
  | (_, some _) => .refused .usage

/-- The meaning of an option that starts with one dash. -/
def shortWord : List Char → Word
  | 'h' :: _ => .refused .help
  | 'V' :: _ => .refused .version
  | ['o'] => .valued .output none
  | 'o' :: '=' :: value => .valued .output (some (String.ofList value))
  | 'o' :: value => .valued .output (some (String.ofList value))
  | _ => .refused .usage

/-- The meaning of an argument. A single dash is no option. -/
def word (arg : String) : Word :=
  match arg.toList with
  | ['-', '-'] => .escape
  | '-' :: '-' :: cs => longWord cs
  | '-' :: c :: cs => shortWord (c :: cs)
  | _ => .positional arg

/-! ## All arguments -/

/-- Arguments that are no options. -/
def addInputs (o : Options) : List String → Except Refusal Options
  | [] => .ok o
  | arg :: args =>
    match o.addInput arg with
    | .ok o => o.addInputs args
    | .error r => .error r

/-- Goes through the arguments from the first to the last. -/
def parseFrom (o : Options) : List String → Except Refusal Options
  | [] => .ok o
  | arg :: args =>
    match word arg with
    | .escape => o.addInputs args
    | .refused r => .error r
    | .flag f =>
      match o.addFlag f with
      | .ok o => o.parseFrom args
      | .error r => .error r
    | .positional text =>
      match o.addInput text with
      | .ok o => o.parseFrom args
      | .error r => .error r
    | .valued v (some value) =>
      match o.addValue v value with
      | .ok o => o.parseFrom args
      | .error r => .error r
    | .valued v none =>
      match args with
      | [] => .error .usage
      | value :: args =>
        match word value with
        | .positional text =>
          match o.addValue v text with
          | .ok o => o.parseFrom args
          | .error r => .error r
        | _ => .error .usage

/-- The options that arguments spell. The style of a drawing makes sense only with a drawing. -/
def parse (args : List String) : Except Refusal Options :=
  match parseFrom {} args with
  | .error r => .error r
  | .ok o => if o.has .ascii && !o.has .dumpAst then .error .usage else .ok o

end Options

end MicroC
