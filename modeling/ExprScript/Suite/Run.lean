import ExprScript.Compile
import ExprScript.Suite.Case

set_option autoImplicit false

/-! # Running test cases

A case is compiled, and the script or the error is compared with what the case expects. Scripts
are compared without the blanks at their ends.
-/

namespace ExprScript

/-- What became of a test case. -/
inductive Verdict where
  | pass
  /-- a failure; when a script was not the expected one, `mismatch` holds both -/
  | fail (error : String) (mismatch : Option (String × String))
  | skipped (reason : String)
deriving DecidableEq, Repr

def TestCase.judgeScript (c : TestCase) (script : String) : Verdict :=
  if c.expectsFailure then .fail ("expected an error, but compiled to:\n" ++ script) none
  else
    match c.expected with
    | none => .pass
    | some expected =>
      if trimBlank expected = trimBlank script then .pass
      else
        .fail "output did not match expected" (some (trimBlank expected, trimBlank script))

/-- The verdict on a case that gave an error, as far as the wording of the error goes. -/
def TestCase.judgeWording (c : TestCase) (wording : String) : Verdict :=
  match c.expectError with
  | some part =>
    if containsText wording part then .pass
    else .fail ("expected error containing '" ++ part ++ "', got: " ++ wording) none
  -- the number of diagnostics has been compared before
  | none => if c.expectDiagnostics.isSome then .pass else .fail wording none

def TestCase.judgeError (c : TestCase) (r : Report) : Verdict :=
  let found := r.fault.diagnostics.length
  match c.expectDiagnostics with
  | some 0 => .fail r.message none
  | some count =>
    if found = count then c.judgeWording r.message
    else
      .fail ("expected " ++ toString count ++ " diagnostic(s), found " ++ toString found ++ ": " ++
        r.message) none
  | none => c.judgeWording r.message

def TestCase.run (settings : Settings) (c : TestCase) : Verdict :=
  match settings.compile ⟨c.name, c.input⟩ with
  | .ok script => c.judgeScript script
  | .error r => c.judgeError r

/-- The verdicts on the cases of one run, in order. -/
def runCases (settings : Settings) (filter : Option String) (cases : List TestCase) :
    List Verdict :=
  let hasOnly := cases.any (·.only)
  cases.map fun c =>
    match c.skipReason? hasOnly filter with
    | some reason => .skipped reason
    | none => c.run settings

/-- The numbers of cases that passed, failed and were left out. -/
structure Totals where
  passed : Nat
  failed : Nat
  skipped : Nat
deriving DecidableEq, Repr

def Totals.of (vs : List Verdict) : Totals where
  passed := (vs.filter fun | .pass => true | _ => false).length
  failed := (vs.filter fun | .fail _ _ => true | _ => false).length
  skipped := (vs.filter fun | .skipped _ => true | _ => false).length

end ExprScript
