import ExprScript.Command.Arguments

set_option autoImplicit false

/-! # Help

The help texts of the program and of each command: what it is for, how it is used, and a table
for each kind of argument. In a table the explanations start in one column.
-/

namespace ExprScript.Command

def CommandName.purpose : CommandName → String
  | .compile => "Full pipeline: parse, build, analyze and generate JavaScript"
  | .check => "Parse, build and analyze; report every diagnostic"
  | .ast => "Show the Abstract Syntax Tree (AST) for a script"
  | .raw => "Show the raw parse tree as JSON"
  | .build => "Compile a raw parse tree (JSON) produced by an external parser"
  | .test => "Discover and run the YAML compile suites in a directory"

def Opt.form : Opt → String
  | .verbose => "-v, --verbose..."
  | .config => "    --config <FILE>"
  | .output => "-o, --output <OUTPUT>"
  | .json => "    --json"
  | .filter => "    --filter <FILTER>"
  | .help => "-h, --help"
  | .version => "-V, --version"

/-- What an option of a command is for. Only compiling explains its output. -/
def Opt.purpose (c : Option CommandName) : Opt → String
  | .verbose => "Increase log verbosity (-v debug, -vv trace). RUST_LOG applies otherwise"
  | .config => "Configuration file. Defaults to ./kiba.yaml when present"
  | .output => if c = some .compile then "Write the output here instead of stdout" else ""
  | .json => "Print the structural JSON form instead of the label tree"
  | .filter => "Only run cases whose name contains this substring"
  | .help => "Print help"
  | .version => "Print version"

def table (title : String) (rows : List (String × String)) : String :=
  let width := (rows.map fun r => r.1.length).foldl max 0
  title ++ ":\n" ++ String.join (rows.map fun (form, purpose) =>
    "  " ++ form ++ String.ofList (List.replicate (width - form.length + 2) ' ') ++ purpose ++ "\n")

def optionTable (c : Option CommandName) (options : List Opt) : String :=
  table "Options" (options.map fun o => (o.form, o.purpose c))

def programHelp : String :=
  "Compiles Kiba source to JavaScript.\n\nUsage: kiba [OPTIONS] <COMMAND>\n\n" ++
    table "Commands" (CommandName.all.map (fun c => (c.word, c.purpose)) ++
      [("help", "Print this message or the help of the given subcommand(s)")]) ++ "\n" ++
    optionTable none [.verbose, .config, .help, .version]

def commandHelp (c : CommandName) : String :=
  let (form, purpose) :=
    if c = .test then ("[PATH]", "[default: " ++ suiteDirectory ++ "]") else ("<FILE>", "")
  c.purpose ++ "\n\nUsage: kiba " ++ c.word ++ " [OPTIONS] " ++ form ++ "\n\n" ++
    table "Arguments" [(form, purpose)] ++ "\n" ++
    optionTable (some c) (c.options ++ [.verbose, .config, .help])

def helpText : Option CommandName → String
  | none => programHelp
  | some c => commandHelp c

end ExprScript.Command
