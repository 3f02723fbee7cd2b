import ExprScript.Check.Run
import ExprScript.Raw.Json
import ExprScript.Raw.Parse
import ExprScript.Report.Basic
import ExprScript.Settings
import ExprScript.Tree.Build

set_option autoImplicit false

/-! # Compiling

From a source text or a raw tree to the script: parse, build, analyze, generate. The first
phase that fails ends the compilation with a report, and nothing is generated for a program
that did not pass its checks.
-/

namespace ExprScript

def parseSource (source : SourceText) : Except Report RawNode :=
  match parse source.content with
  | .ok raw => .ok raw
  | .error e => .error (.ofSyntaxError source "parse" e)

/-- Builds the program tree of a raw tree whose spans point into `source`. -/
def buildProgramTree (source : SourceText) (raw : RawTree) : Except Report Node :=
  match Node.buildTree raw with
  | .ok program => .ok program
  | .error e => .error (.ofBuildError source "build" e)

def programOf (source : SourceText) : Except Report Node :=
  match parseSource source with
  | .ok raw => buildProgramTree source (.node raw)
  | .error r => .error r

namespace Settings

/-- Checks a program; the answer is the program itself. -/
def analyze (settings : Settings) (source : SourceText) (program : Node) : Except Report Node :=
  match (defaultRules settings.globals).analyze program with
  | [] => .ok program
  | d :: ds => .error (.ofDiagnostics source "analyze" (d :: ds))

def check (settings : Settings) (source : SourceText) : Except Report Node :=
  match programOf source with
  | .ok program => settings.analyze source program
  | .error r => .error r

def script (settings : Settings) (source : SourceText) (program : Node) :
    Except Report String :=
  match generate? settings.indent program with
  | some text => .ok text
  | none => .error (.create source "generate" (.internal "a node lacks a child") .start)

def compile (settings : Settings) (source : SourceText) : Except Report String :=
  match settings.check source with
  | .ok program => settings.script source program
  | .error r => .error r

/-- The script of a raw tree whose spans point into `source`. -/
def compileRaw (settings : Settings) (source : SourceText) (raw : RawTree) :
    Except Report String :=
  match buildProgramTree source raw with
  | .error r => .error r
  | .ok program =>
    match settings.analyze source program with
    | .ok program => settings.script source program
    | .error r => .error r

end Settings

def readRawTree (source : SourceText) : Except Report RawTree :=
  match Json.read? source.content with
  | none =>
    .error (.create source "parse" (.syntaxError "invalid raw tree JSON") .start)
  | some v =>
    match RawTree.ofJson? v with
    | some tree => .ok tree
    | none =>
      .error (.create source "parse"
        (.syntaxError ("invalid raw tree JSON: data did not match any variant of untagged enum " ++
          "RawTree")) .start)

end ExprScript
