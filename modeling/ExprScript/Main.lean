import ExprScript.Command.Run

set_option autoImplicit false

/-! # The program

Runs a command over the files of the machine and prints what it gives.
-/

namespace ExprScript.Command

/-- The paths of all files at or below a path. -/
partial def listFiles (path : String) : IO (List String) := do
  let place := (← IO.currentDir) / path
  if ← place.isDir then
    let entries ← place.readDir
    let lists ← entries.toList.mapM fun e => listFiles (joinPath path e.fileName)
    return lists.flatten
  else if ← place.pathExists then return [path]
  else return []

instance : FileSystem IO where
  read path := do
    try
      return .ok (← IO.FS.readFile path)
    catch e => return .error e.toString
  write path content := do
    try
      IO.FS.writeFile path content
      return .ok ()
    catch e => return .error e.toString
  isFile path := do
    let place := (← IO.currentDir) / path
    return (← place.pathExists) && !(← place.isDir)
  filesBelow path := listFiles path

/-- The text of a report for a terminal. -/
def Outcome.reportText (o : Outcome) : String :=
  match o.report with
  | none => ""
  | some r =>
    "Error: " ++ r.code ++ "\n\n  " ++ r.message ++ "\n" ++
      String.join (r.labels.map fun l =>
        "  at " ++ r.source.name ++ ":" ++ toString l.1.offset ++ ": " ++ l.2 ++ "\n") ++
      (match r.fault.help? with
        | some help => "  help: " ++ help ++ "\n"
        | none => "")

end ExprScript.Command

open ExprScript.Command in
def main (args : List String) : IO UInt32 := do
  let outcome ← run (m := IO) args
  (← IO.getStdout).putStr outcome.out
  (← IO.getStderr).putStr (outcome.err ++ outcome.reportText)
  return outcome.status.toUInt32
