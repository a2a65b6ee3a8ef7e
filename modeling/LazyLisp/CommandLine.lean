import LazyLisp.Library

namespace LazyLisp

inductive Command where
  | interactive
  | run (path : String)
  | dump (path : String)
  | help
  | version
  | unknown (flags : List String)
deriving DecidableEq, Repr

namespace Command

def usage : String :=
  "usage: csxp [-e FILE | -t FILE | -h | -v]\n\n" ++
  "  (no flags)         start the REPL\n" ++
  "  -e, --exec FILE    evaluate every form in FILE\n" ++
  "  -t, --test FILE    read FILE and print each form without evaluating it\n" ++
  "  -h, --help         show this message\n" ++
  "  -v, --version      show the version"

def versionText : String := "csxp 0.1.0"

def ofFlags : List String → Command
  | [] => interactive
  | ["-e", path] | ["--exec", path] => run path
  | ["-t", path] | ["--test", path] => dump path
  | ["-h"] | ["--help"] => help
  | ["-v"] | ["--version"] => version
  | flags => unknown flags

inductive Trouble where
  | usage (message : String)
  | file (error : FileError)
  | evaluation (e : Failure)

def Trouble.message : Trouble → Eval String
  | usage message => pure (message ++ "\n" ++ Command.usage)
  | file error => pure ("io error: " ++ error.message)
  | evaluation e => evaluator.message e

structure Report where
  trouble? : Option Trouble
  errors : String

def errorLine (message : String) : String := "Error: " ++ message ++ "\n"

def printLine (text : String) : Eval Unit := .modify (·.print (text ++ "\n"))

def success : Report := ⟨none, ""⟩

def runFile (path : String) : Eval Report := do
  match ← (evaluator.loadFile path).attempt with
  | .ok _ => pure success
  | .error e =>
    let message ← evaluator.message e
    pure ⟨some (.evaluation e), errorLine message⟩

def printForms : List Form → Eval Unit
  | [] => pure ()
  | f :: rest => do
    printLine (f.render .readable)
    printForms rest

def dumpFile (path : String) : Eval Report := do
  match ← Eval.read (·.files.read path) with
  | .error e =>
    Eval.modify (·.want path)
    pure ⟨some (.file e), ""⟩
  | .ok text =>
    let reading := Source.read text path
    printForms reading.forms
    match reading.fault? with
    | none => pure success
    | some fault => pure ⟨some (.evaluation (.read fault)), errorLine fault.message⟩

def execute : Command → Eval Report
  | interactive => pure success
  | run path => runFile path
  | dump path => dumpFile path
  | help => do
    printLine usage
    pure success
  | version => do
    printLine versionText
    pure success
  | unknown flags =>
    pure ⟨some (.usage ("unrecognised arguments: " ++ " ".intercalate flags)), ""⟩

end Command

end LazyLisp
