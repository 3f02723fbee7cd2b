import ExprScript.Command.Files
import ExprScript.Command.Help
import ExprScript.Suite.Summary
import ExprScript.Tree.Object
import ExprScript.Tree.Walk

set_option autoImplicit false

/-! # Commands

What each command does, over any file system. The settings are read first, from the file that
the command line names, or else from `kiba.yaml` if there is such a file. An error ends a
command with exit status 1, as does a test case that failed; a command line that cannot be
understood gives exit status 2.
-/

namespace ExprScript.Command

/-- How a command ended: its exit status, what it printed, and the error it reported. -/
structure Outcome where
  status : Nat := 0
  out : String := ""
  err : String := ""
  report : Option Report := none
deriving DecidableEq, Repr

/-- The file the settings are read from if none is named. -/
def settingsFile : String := "kiba.yaml"

def versionLine : String := "kiba 0.1.0\n"

variable {m : Type → Type} [Monad m] [FileSystem m]

/-- A step of a command, which may end it with a report. -/
abbrev Step (m : Type → Type) (α : Type) : Type := ExceptT Report m α

/-- Goes on with the value of a phase, or ends the command with its report. -/
def ofPhase {α : Type} (r : Except Report α) : Step m α := ExceptT.mk (pure r)

def readFile (path : String) : Step m String := do
  match ← ExceptT.lift (FileSystem.read path) with
  | .ok content => return content
  | .error reason =>
    throw (.create (.fallback "CompilePipeline::read_file") "io" (.io path reason) .start)

def readSettings (path : String) : m (Except SettingsError Settings) := do
  match ← FileSystem.read path with
  | .ok content => return Settings.ofText path content
  | .error reason => return .error (.unreadable path reason)

def findSettings (config : Option String) : m (Except SettingsError Settings) := do
  match config with
  | some path => readSettings path
  | none =>
    if ← FileSystem.isFile settingsFile then readSettings ("./" ++ settingsFile)
    else return .ok {}

/-- Finds the settings of a command, or ends it with a report. -/
def loadSettings (config : Option String) : Step m Settings := do
  match ← ExceptT.lift (findSettings config) with
  | .ok settings => return settings
  | .error e =>
    throw (.create (.fallback "configuration") "config" (.config e.message) .start)

/-- Prints a script, or writes it to a file. -/
def emit (script : String) (output : Option String) : Step m Outcome := do
  match output with
  | none => return { out := script ++ "\n" }
  | some path =>
    match ← ExceptT.lift (FileSystem.write path (script ++ "\n")) with
    | .ok () => return { err := "wrote " ++ path ++ "\n" }
    | .error reason => throw (.create (.fallback "output") "io" (.io path reason) .start)

/-! ## Test suites -/

def isSuitePath (path : String) : Bool :=
  extension? path = some "yaml" || extension? path = some "yml"

def loadSuite (file : String) : m (Except TestResult (List (String × TestCase))) := do
  let failure (error : String) : TestResult := ⟨file, "<suite>", .fail error none⟩
  match ← FileSystem.read file with
  | .error reason => return .error (failure ("failed to read " ++ file ++ ": " ++ reason))
  | .ok content =>
    match TestCase.listOfText? content with
    | some cases => return .ok (cases.map (file, ·))
    | none => return .error (failure ("invalid YAML in " ++ file))

/-- The results of all suites at or below a path: first those of suites that cannot be read. -/
def runSuites (settings : Settings) (path : String) (filter : Option String) :
    m (List TestResult) := do
  let files := (((← FileSystem.filesBelow path).filter isSuitePath).mergeSort pathLe)
  let loaded ← files.mapM loadSuite
  let broken := loaded.filterMap fun | .error r => some r | .ok _ => none
  let cases := loaded.flatMap fun | .ok cases => cases | .error _ => []
  let verdicts := runCases settings filter (cases.map Prod.snd)
  return broken ++ (cases.zip verdicts).map fun ((file, c), v) => ⟨file, c.name, v⟩

/-! ## Tasks -/

/-- Does what is asked for. -/
def perform (settings : Settings) : Task → Step m Outcome
  | .compile file output => do
    let source ← readFile file
    emit (← ofPhase (settings.compile ⟨file, source⟩)) output
  | .check file => do
    let source ← readFile file
    let _ ← ofPhase (settings.check ⟨file, source⟩)
    return { err := file ++ ": no problems found\n" }
  | .ast file json => do
    let source ← readFile file
    let program ← ofPhase (programOf ⟨file, source⟩)
    return { out := (if json then program.toObject.pretty else program.pretty) ++ "\n" }
  | .raw file => do
    let source ← readFile file
    let raw ← ofPhase (parseSource ⟨file, source⟩)
    return { out := raw.toJson.pretty ++ "\n" }
  | .build file output => do
    let json ← readFile file
    let raw ← ofPhase (readRawTree ⟨file, json⟩)
    emit (← ofPhase (settings.compileRaw (.fallback file) raw)) output
  | .test path filter => do
    let results ← ExceptT.lift (runSuites settings path filter)
    let printed := printResults false results
    let totals := Totals.of (results.map TestResult.verdict)
    return {
      status := if totals.failed = 0 then 0 else 1
      out := printed.out
      err := printed.err }

def invoke (i : Invocation) : Step m Outcome := do
  perform (← loadSettings i.config) i.task

/-- Runs the program with the given arguments. -/
def run (args : List String) : m Outcome := do
  match parse args with
  | .misuse => return { status := 2, err := programHelp }
  | .help topic => return { out := helpText topic }
  | .version => return { out := versionLine }
  | .run i =>
    match ← (invoke i).run with
    | .ok outcome => return outcome
    | .error report => return { status := 1, report := some report }

end ExprScript.Command
