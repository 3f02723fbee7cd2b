import ExprScript.Suite.Diff
import ExprScript.Suite.Run

set_option autoImplicit false

/-! # Reports on test runs

The texts that tell how a run of test cases went: a line for each case that passed or was left
out, a block for each that failed, and a last line with the totals. Words can be coloured by
terminal escapes.
-/

namespace ExprScript

/-! ## Colours -/

def colorReset : String := "\x1b[0m"

/-- A text between the escape of a colour and its end, if colours are wanted. -/
def colorize (useColors : Bool) (color text : String) : String :=
  if useColors then color ++ text ++ colorReset else text

def red : String := "\x1b[31m"

def green : String := "\x1b[32m"

def yellow : String := "\x1b[33m"

/-! ## Reports -/

structure TestResult where
  file : String
  name : String
  verdict : Verdict
deriving DecidableEq, Repr

/-- What a run prints: to its output and to its errors. -/
structure Printed where
  out : String := ""
  err : String := ""
deriving DecidableEq, Repr

def TestResult.title (r : TestResult) : String := r.name ++ " [" ++ r.file ++ "]"

def TestResult.print (useColors : Bool) (r : TestResult) : Printed :=
  match r.verdict with
  | .pass => { out := colorize useColors green "PASS" ++ ": " ++ r.title ++ "\n" }
  | .skipped reason =>
    { out := colorize useColors yellow "SKIP" ++ ": " ++ r.title ++ " (" ++ reason ++ ")\n" }
  | .fail error mismatch =>
    let head := colorize useColors red "FAIL" ++ ": " ++ r.title ++ "\n  Error: " ++ error ++ "\n"
    match mismatch with
    | none => { err := head }
    | some (expected, actual) =>
      { err := head ++ "  Diff:\n" ++
          String.join ((Diff.report expected actual).map (· ++ "\n")) }

def summaryLine (useColors : Bool) (rs : List TestResult) : String :=
  let totals := Totals.of (rs.map TestResult.verdict)
  "\nTest summary: total " ++ toString rs.length ++ ", " ++
    colorize useColors green "passed" ++ " " ++ toString totals.passed ++ ", " ++
    colorize useColors red "failed" ++ " " ++ toString totals.failed ++ ", " ++
    colorize useColors yellow "skipped" ++ " " ++ toString totals.skipped ++ "\n"

def printResults (useColors : Bool) (rs : List TestResult) : Printed :=
  let parts := rs.map (TestResult.print useColors)
  { out := String.join (parts.map Printed.out) ++ summaryLine useColors rs
    err := String.join (parts.map Printed.err) }

end ExprScript
