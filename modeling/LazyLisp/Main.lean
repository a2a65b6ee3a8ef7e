import LazyLisp.Repl

namespace LazyLisp

namespace Main

def diskEntry (path : String) : IO FileEntry := do
  try
    let bytes ← IO.FS.readBinFile path
    pure (.content bytes)
  catch
    | .noFileOrDirectory _ _ _ => pure .absent
    | _ => pure .directory

def addEntries (files : FileTable) : List String → IO FileTable
  | [] => pure files
  | path :: rest => do
    let entry ← diskEntry path
    addEntries (files.note path entry) rest

/-- Runs a computation. If it wanted files that were not known, they are read and it starts over. -/
partial def perform {α : Type} (m : Eval α) (w : World) : IO (Option α × World) := do
  let retry (result : Option α) (after : World) : IO (Option α × World) := do
    match after.wanted with
    | [] => pure (result, after)
    | paths =>
      let files ← addEntries w.files paths
      perform m { w with files := files }
  match m w with
  | .value a after => retry (some a) after
  | .failure _ after => retry none after
  | .outOfFuel => pure (none, w)

def flushOutput (w : World) : IO World := do
  let (text, w) := w.takeOutput
  IO.print text
  (← IO.getStdout).flush
  pure w

partial def interact (w : World) (pending : String) : IO Unit := do
  IO.print (Repl.prompt w.namespaces.current pending)
  (← IO.getStdout).flush
  let line ← (← IO.getStdin).getLine
  unless line.isEmpty do
    let line := if line.endsWith "\n" then (line.dropEnd 1).toString else line
    match ← perform (Repl.feed pending line) w with
    | (some (shown, pending), w) =>
      let w ← flushOutput w
      IO.print shown
      interact w pending
    | (none, _) => pure ()

def carryOut (command : Command) : IO UInt32 := do
  match ← perform command.execute World.standard with
  | (some report, w) =>
    let w ← flushOutput w
    IO.eprint report.errors
    match report.trouble? with
    | none => pure 0
    | some trouble =>
      if report.errors.isEmpty then
        match ← perform trouble.message w with
        | (some message, _) => IO.eprintln message
        | (none, _) => pure ()
      pure 1
  | (none, _) => pure 1

end Main

end LazyLisp

open LazyLisp in
def main (flags : List String) : IO UInt32 :=
  match Command.ofFlags flags with
  | .interactive => do
    Main.interact World.standard ""
    pure 0
  | command => Main.carryOut command
