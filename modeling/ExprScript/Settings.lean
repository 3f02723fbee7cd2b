import ExprScript.Script.Generator
import ExprScript.Source.Blank
import ExprScript.Yaml.Reader

set_option autoImplicit false

/-! # Settings

What a compilation can be told: the names that are always defined, and the indent of the
script. Settings are read from a YAML text such as

    analyzer:
      globals: [std, console]
    codegen:
      indent: "    "

in which every part may be missing. Keys that are not known, and keys that come twice, are
refused.
-/

namespace ExprScript

/-- What a compilation can be told. -/
structure Settings where
  /-- the names that are always defined -/
  globals : List String := [stdName]
  /-- one level of indentation in the script -/
  indent : String := defaultIndent
deriving DecidableEq, Repr

/-- Why settings cannot be read from a file. -/
inductive SettingsError where
  | unreadable (path : String) (reason : String)
  | invalid (path : String)
deriving DecidableEq, Repr

def SettingsError.message : SettingsError → String
  | .unreadable path reason => "failed to read " ++ path ++ ": " ++ reason
  | .invalid path => "invalid configuration in " ++ path

namespace Yaml

def texts? (v : Yaml) : Option (List String) := v.items?.bind fun ys => ys.mapM text?

/-- The value of the one key a mapping may have, if the key is there. -/
def single? (key : String) (v : Yaml) : Option (Option Yaml) :=
  match v.entries? with
  | some [] => some none
  | some [(k, x)] => if k = key then some (some x) else none
  | _ => none

end Yaml

namespace Settings

/-- The settings with the globals that the `analyzer` part gives. -/
def withAnalyzer? (s : Settings) (v : Yaml) : Option Settings :=
  match v.single? "globals" with
  | none => none
  | some none => some s
  | some (some x) => x.texts?.map fun globals => { s with globals }

/-- The settings with the indent that the `codegen` part gives. -/
def withCodegen? (s : Settings) (v : Yaml) : Option Settings :=
  match v.single? "indent" with
  | none => none
  | some none => some s
  | some (some x) => x.text?.map fun indent => { s with indent }

def withParts? (s : Settings) : List (String × Yaml) → Option Settings
  | [] => some s
  | (key, v) :: parts =>
    if key = "analyzer" then (s.withAnalyzer? v).bind fun s => withParts? s parts
    else if key = "codegen" then (s.withCodegen? v).bind fun s => withParts? s parts
    else none

def ofYaml? (v : Yaml) : Option Settings :=
  match v.entries? with
  | none => none
  | some entries =>
    if Yaml.unrepeated ["analyzer", "codegen"] entries then withParts? {} entries else none

/-- The settings a text stands for. A blank text leaves everything as it is by default. -/
def ofText (path : String) (text : String) : Except SettingsError Settings :=
  if text.toList.all isBlank then .ok {}
  else
    match (Yaml.read? text).bind ofYaml? with
    | some s => .ok s
    | none => .error (.invalid path)

end Settings

end ExprScript
