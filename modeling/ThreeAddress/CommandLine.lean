import ThreeAddress.FlowGraph.Report
import ThreeAddress.Lowering
import ThreeAddress.Program.Reader

/-!
The command line: what the arguments ask for, and what comes of it.

`compile` takes a file, and options before or after it: a long option with its value after `=` or as the next
argument, a short one with its value attached or next, short flags in one cluster.  After `--` everything is a file.
Flags and options may be given once.
-/

namespace ThreeAddress

/-- A request to compile a file. -/
structure Command where
  input : String
  output : Option String
  options : Options
  printProgram : Bool
  printGraphs : Bool
  deriving DecidableEq

/-- What the arguments ask for. -/
inductive Request where
  | version
  | compile (c : Command)
  deriving DecidableEq

/-! ### Arguments -/

namespace CommandLine

def versionText : String := "tacc 0.1.0\n"

/-- The arguments of `compile` met so far. -/
structure Given where
  input : Option String
  output : Option String
  registers : Option Nat
  comments : Bool
  printProgram : Bool
  printGraphs : Bool
  verbose : Bool

def Given.nothing : Given := ⟨none, none, none, false, false, false, false⟩

/-- Whether an argument is read as options: a dash and more. -/
def isOption (arg : String) : Bool := arg.startsWith "-" && arg ≠ "-"

/-- The value of an option that is taken from the next argument. -/
def nextValue? : List String → Option (String × List String)
  | v :: rest => if isOption v then none else some (v, rest)
  | [] => none

/-- A number of registers: digits, with or without a plus, of 64 bits. -/
def number? (s : String) : Option Nat :=
  let ds := match s.toList with
    | '+' :: ds => ds
    | ds => ds
  if ds.isEmpty || !ds.all Char.isDigit then none
  else
    let n := ds.foldl (fun n c => 10 * n + (c.toNat - '0'.toNat)) 0
    if n < Nat.pow 2 64 then some n else none

namespace Given

variable (g : Given)

def setInput (path : String) : Option Given :=
  if path.isEmpty || g.input.isSome then none else some { g with input := some path }

def setOutput (path : String) : Option Given :=
  if path.isEmpty || g.output.isSome then none else some { g with output := some path }

def setRegisters (s : String) : Option Given :=
  if g.registers.isSome then none else (number? s).map fun n => { g with registers := some n }

def setComments : Option Given := if g.comments then none else some { g with comments := true }

def setPrintProgram : Option Given := if g.printProgram then none else some { g with printProgram := true }

def setPrintGraphs : Option Given := if g.printGraphs then none else some { g with printGraphs := true }

def setVerbose : Option Given := if g.verbose then none else some { g with verbose := true }

/-- The long flag with the given name. -/
def setFlag : String → Option Given
  | "comments" => g.setComments
  | "print-tac" => g.setPrintProgram
  | "print-cfg" => g.setPrintGraphs
  | "verbose" => g.setVerbose
  | _ => none

/-- The long option with the given name. -/
def setOption (name value : String) : Option Given :=
  match name with
  | "output" => g.setOutput value
  | "registers" => g.setRegisters value
  | _ => none

def command? : Option Command :=
  g.input.map fun input => ⟨input, g.output, ⟨g.comments, g.registers⟩, g.printProgram, g.printGraphs⟩

end Given

/-- What a cluster of short options sets, and whether its last option still lacks a value. -/
def cluster (g : Given) : List Char → Option (Given × Bool)
  | [] => some (g, false)
  | 'v' :: rest => do cluster (← g.setVerbose) rest
  | ['o'] => some (g, true)
  | 'o' :: '=' :: value => do return (← g.setOutput (String.ofList value), false)
  | 'o' :: value => do return (← g.setOutput (String.ofList value), false)
  | _ :: _ => none

/-- A long option: its name, and its value if it is attached. -/
def splitLong (arg : String) : String × Option String :=
  let cs := arg.toList
  let name := String.ofList (cs.takeWhile (· ≠ '='))
  match cs.dropWhile (· ≠ '=') with
  | [] => (name, none)
  | _ :: value => (name, some (String.ofList value))

/-- The long options that take a value. -/
def takesValue (name : String) : Bool := name = "output" || name = "registers"

/-- The arguments of `compile`, at most `fuel` of them; after `--` they are all files. -/
def compileArgs : (fuel : Nat) → (filesOnly : Bool) → Given → List String → Option Given
  | 0, _, g, _ => some g
  | _ + 1, _, g, [] => some g
  | fuel + 1, filesOnly, g, arg :: rest =>
    if filesOnly || !isOption arg then do compileArgs fuel filesOnly (← g.setInput arg) rest
    else if arg = "--" then compileArgs fuel true g rest
    else
      match arg.toList with
      | '-' :: '-' :: long =>
        match splitLong (String.ofList long) with
        | (name, some value) => do compileArgs fuel false (← g.setOption name value) rest
        | (name, none) =>
          if takesValue name then do
            let (value, rest) ← nextValue? rest
            compileArgs fuel false (← g.setOption name value) rest
          else do compileArgs fuel false (← g.setFlag name) rest
      | _ :: short => do
        let (g, lacking) ← cluster g short
        if lacking then
          let (value, rest) ← nextValue? rest
          compileArgs fuel false (← g.setOutput value) rest
        else compileArgs fuel false g rest
      | [] => none

/-- A cluster of short options before the command: `none` if one is unknown or repeated, else whether to show the
version and whether to be verbose. -/
def leadingCluster (verbose : Bool) : List Char → Option (Bool × Bool)
  | [] => some (false, verbose)
  | 'V' :: _ => some (true, verbose)
  | 'v' :: rest => if verbose then none else leadingCluster true rest
  | _ :: _ => none

/-- What the arguments ask for, if they are well-formed. -/
def parse (verbose : Bool) : List String → Option Request
  | [] => none
  | "compile" :: rest => do return .compile (← (← compileArgs rest.length false .nothing rest).command?)
  | "--version" :: _ => some .version
  | "--verbose" :: rest => if verbose then none else parse true rest
  | arg :: rest =>
    match arg.toList with
    | '-' :: '-' :: _ => none
    | '-' :: c :: short => do
      let (version, verbose) ← leadingCluster verbose (c :: short)
      if version then return .version else parse verbose rest
    | _ => none

def request? (args : List String) : Option Request := parse false args

end CommandLine

/-! ### Compiling -/

/-- How compiling ends: by an error, by printing, or with a text for a file. -/
inductive Result where
  | failed (message : String)
  | printed
  | file (path text : String)
  deriving DecidableEq

/-- What compiling prints, and how it ends. -/
structure Compilation where
  stdout : String
  result : Result
  deriving DecidableEq

/-- What a program leaves behind: its exit code and what it printed. -/
structure Exit where
  code : Nat
  stdout : String
  stderr : String
  deriving DecidableEq

namespace Command

def listing (c : Command) (p : Program) : String := if c.printProgram then "=== TAC ===\n" ++ p.text ++ "\n" else ""

/-- Reports on the flow graphs, if asked to. -/
def reports (c : Command) (p : Program) : String × Option ProgramError :=
  if c.printGraphs then
    let (text, error) := Program.graphReports p.funcs
    ("=== CFG ===\n" ++ text, error)
  else ("", none)

def compileProgram (c : Command) (p : Program) : Compilation :=
  let (graphs, error) := c.reports p
  let shown := c.listing p ++ graphs
  match error with
  | some e => ⟨shown, .failed e.message⟩
  | none =>
    match p.compile c.options with
    | .error e => ⟨shown, .failed e.message⟩
    | .ok text =>
      match c.output with
      | some path => ⟨shown, .file path text⟩
      | none => ⟨shown ++ text, .printed⟩

/-- Compiles the text of the input file; `none` is a file that cannot be read. -/
def run (c : Command) (text : Option String) : Compilation :=
  match text with
  | none => ⟨"", .failed ("failed to read " ++ c.input)⟩
  | some text =>
    match Program.ofJson text with
    | .error _ => ⟨"", .failed (c.input ++ " is not a valid TAC program")⟩
    | .ok p => c.compileProgram p

end Command

/-- What the program leaves behind; `written` says whether the file could be written. -/
def Compilation.exit (r : Compilation) (written : Bool) : Exit :=
  match r.result with
  | .failed message => ⟨1, r.stdout, "Error: " ++ message ++ "\n"⟩
  | .printed => ⟨0, r.stdout, ""⟩
  | .file path _ =>
    if written then ⟨0, r.stdout, "Assembly written to: " ++ path ++ "\n"⟩
    else ⟨1, r.stdout, "Error: failed to write " ++ path ++ "\n"⟩

end ThreeAddress
