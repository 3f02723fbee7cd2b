import ExprScript.Source.LetterCase
import ExprScript.Yaml.Reader

set_option autoImplicit false

/-! # Test cases

A test case names an input and what compiling it has to give: a script, an error, or a number
of diagnostics. Cases come in suites, which are YAML sequences of mappings; keys that mean
nothing here are passed over.

Cases can be left out: those not marked `only` as soon as one is so marked, those marked
`skip`, and those whose name does not contain the text that is asked for, whatever the case of
its letters.
-/

namespace ExprScript

/-! ## Texts -/

/-- Whether the characters `needle` occur in a text next to each other. -/
def occursIn (needle : List Char) : List Char → Bool
  | [] => needle.isEmpty
  | c :: cs => needle.isPrefixOf (c :: cs) || occursIn needle cs

def containsText (text part : String) : Bool := occursIn part.toList text.toList

def containsIgnoringCase (text part : String) : Bool :=
  containsText (lowerText text) (lowerText part)

/-! ## Cases -/

structure TestCase where
  name : String
  input : String
  /-- the script, up to blanks at its ends -/
  expected : Option String := none
  /-- a part of the wording of the error -/
  expectError : Option String := none
  /-- the number of diagnostics -/
  expectDiagnostics : Option Nat := none
  skip : Bool := false
  only : Bool := false
deriving DecidableEq, Repr

namespace TestCase

/-- Whether the case asks for a compilation that fails. -/
def expectsFailure (c : TestCase) : Bool :=
  c.expectError.isSome || c.expectDiagnostics.any (0 < ·)

/-- The reason to leave a case out, where `hasOnly` says whether some case is marked `only`. -/
def skipReason? (hasOnly : Bool) (filter : Option String) (c : TestCase) : Option String :=
  if hasOnly && !c.only then some "not marked 'only' in 'only' mode"
  else if c.skip then some "marked 'skip'"
  else
    match filter with
    | some part =>
      if containsIgnoringCase c.name part then none
      else some ("filtered out by substring: " ++ part)
    | none => none

def keys : List String :=
  ["name", "input", "expected", "expect_error", "expect_diagnostics", "skip", "only"]

/-- The flag with the given key, which is false unless it is there. -/
def flag? (entries : List (String × Yaml)) (key : String) : Option Bool :=
  match entries.lookup key with
  | some v => v.bool?
  | none => some false

def ofYaml? (v : Yaml) : Option TestCase :=
  match v.entries? with
  | none => none
  | some entries =>
    if Yaml.unrepeated keys entries then do
      return {
        name := ← (← entries.lookup "name").text?
        input := ← (← entries.lookup "input").text?
        expected := ← Yaml.optional? Yaml.text? (entries.lookup "expected")
        expectError := ← Yaml.optional? Yaml.text? (entries.lookup "expect_error")
        expectDiagnostics := ← Yaml.optional? Yaml.nat64? (entries.lookup "expect_diagnostics")
        skip := ← flag? entries "skip"
        only := ← flag? entries "only" }
    else none

def listOfText? (text : String) : Option (List TestCase) :=
  (Yaml.read? text).bind fun v => v.items?.bind fun ys => ys.mapM ofYaml?

end TestCase

end ExprScript
