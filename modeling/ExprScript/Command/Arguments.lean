set_option autoImplicit false

/-! # Command line arguments

A command line names a command with its arguments. Options may come before or after other
arguments, up to a `--`, behind which nothing is an option. `--verbose` and `--config` are
understood before and behind the name of the command; behind it they win.

An option with a value takes it from the rest of its own word, behind an equals sign or
directly behind a single letter, or from the next word, which then must not look like an
option. Letters of options without a value can share a word. The first word that is wrong decides,
so that a request for help counts only if all before it is right.
-/

namespace ExprScript.Command

/-! ## Commands -/

inductive CommandName where
  | compile
  | check
  | ast
  | raw
  | build
  | test
deriving DecidableEq, Repr

namespace CommandName

def all : List CommandName := [.compile, .check, .ast, .raw, .build, .test]

def word : CommandName → String
  | .compile => "compile"
  | .check => "check"
  | .ast => "ast"
  | .raw => "raw"
  | .build => "build"
  | .test => "test"

def ofWord? (w : String) : Option CommandName := all.find? fun c => c.word = w

end CommandName

/-- What the program is asked to do. -/
inductive Task where
  /-- compile a source file -/
  | compile (file : String) (output : Option String)
  /-- check a source file -/
  | check (file : String)
  /-- show the program tree of a source file -/
  | ast (file : String) (json : Bool)
  /-- show the raw tree of a source file -/
  | raw (file : String)
  /-- compile a raw tree -/
  | build (file : String) (output : Option String)
  /-- run the test suites in a directory -/
  | test (path : String) (filter : Option String)
deriving DecidableEq, Repr

/-- A command line that asks for a task. -/
structure Invocation where
  verbosity : Nat := 0
  config : Option String := none
  task : Task
deriving DecidableEq, Repr

/-- What a command line asks for. -/
inductive Request where
  | run (invocation : Invocation)
  | version
  /-- help on a command, or on the whole program -/
  | help (topic : Option CommandName)
  /-- the command line cannot be understood -/
  | misuse
deriving DecidableEq, Repr

/-! ## Options -/

inductive Opt where
  | verbose
  | config
  | output
  | json
  | filter
  | help
  | version
deriving DecidableEq, Repr

namespace Opt

def long : Opt → String
  | .verbose => "verbose"
  | .config => "config"
  | .output => "output"
  | .json => "json"
  | .filter => "filter"
  | .help => "help"
  | .version => "version"

def short? : Opt → Option Char
  | .verbose => some 'v'
  | .output => some 'o'
  | .help => some 'h'
  | .version => some 'V'
  | .config | .json | .filter => none

def takesValue : Opt → Bool
  | .config | .output | .filter => true
  | .verbose | .json | .help | .version => false

/-- Whether an option may take a given value. Only the filter may be empty. -/
def accepts (o : Opt) (value : String) : Bool := o = .filter || !value.isEmpty

end Opt

/-! ## Scanning -/

inductive Stop where
  | version
  | help
  | misuse
deriving DecidableEq, Repr

/-- The options and the other word seen so far. -/
structure Seen where
  verbosity : Nat := 0
  values : List (Opt × String) := []
  flags : List Opt := []
  word : Option String := none
deriving Repr

namespace Seen

def value? (s : Seen) (o : Opt) : Option String := s.values.lookup o

/-- Notes an option without a value. Only `--verbose` may come more than once. -/
def flag (s : Seen) (o : Opt) : Except Stop Seen :=
  match o with
  | .verbose => .ok { s with verbosity := s.verbosity + 1 }
  | .help => .error .help
  | .version => .error .version
  | o => if s.flags.contains o then .error .misuse else .ok { s with flags := o :: s.flags }

/-- Notes the value of an option, which may be given once. -/
def setValue (s : Seen) (o : Opt) (value : String) : Except Stop Seen :=
  if (s.value? o).isSome || !o.accepts value then .error .misuse
  else .ok { s with values := (o, value) :: s.values }

/-- Notes the word that belongs to no option. There is room for one, which is not empty. -/
def setWord (s : Seen) (w : String) : Except Stop Seen :=
  if s.word.isSome || w.isEmpty then .error .misuse else .ok { s with word := some w }

end Seen

def looksLikeOption (w : String) : Bool :=
  match w.toList with
  | '-' :: _ :: _ => true
  | _ => false

/-- The text before the first equals sign, and the text behind it if there is one. -/
def splitEquals : List Char → List Char × Option (List Char)
  | [] => ([], none)
  | '=' :: cs => ([], some cs)
  | c :: cs =>
    let (name, value) := splitEquals cs
    (c :: name, value)

/-- Reads the word of an option behind its `--`. Returns the option if its value is still to
come. -/
def readLong (allowed : List Opt) (s : Seen) (cs : List Char) : Except Stop (Seen × Option Opt) :=
  let (name, value) := splitEquals cs
  match allowed.find? (fun o => o.long.toList = name) with
  | none => .error .misuse
  | some o =>
    if o.takesValue then
      match value with
      | some v => (s.setValue o (String.ofList v)).map (·, none)
      | none => .ok (s, some o)
    else
      match value with
      | some _ => .error .misuse
      | none => (s.flag o).map (·, none)

/-- Reads the letters of options behind a `-`. Returns the option if its value is still to
come. -/
def readShort (allowed : List Opt) (s : Seen) : List Char → Except Stop (Seen × Option Opt)
  | [] => .ok (s, none)
  | c :: cs =>
    match allowed.find? (fun o => o.short? = some c) with
    | none => .error .misuse
    | some o =>
      if o.takesValue then
        match cs with
        | [] => .ok (s, some o)
        -- `-o=x` and `-ox` give the same value
        | '=' :: cs => (s.setValue o (String.ofList cs)).map (·, none)
        | cs => (s.setValue o (String.ofList cs)).map (·, none)
      else
        match s.flag o with
        | .ok s => readShort allowed s cs
        | .error e => .error e

def readOption (allowed : List Opt) (s : Seen) (w : String) : Except Stop (Seen × Option Opt) :=
  match w.toList with
  | '-' :: '-' :: cs => readLong allowed s cs
  | '-' :: cs => readShort allowed s cs
  | _ => .error .misuse

/-- Scans the words behind the name of a command. `pending` is an option whose value is still to
come. -/
def scanWords (allowed : List Opt) (s : Seen) (pending : Option Opt) :
    List String → Except Stop Seen
  | [] => if pending.isSome then .error .misuse else .ok s
  | w :: ws =>
    match pending with
    | some o =>
      if looksLikeOption w then .error .misuse
      else
        match s.setValue o w with
        | .ok s => scanWords allowed s none ws
        | .error e => .error e
    | none =>
      -- from here on also what looks like an option is a word
      if w = "--" then ws.foldlM Seen.setWord s
      else if looksLikeOption w then
        match readOption allowed s w with
        | .ok (s, pending) => scanWords allowed s pending ws
        | .error e => .error e
      else
        match s.setWord w with
        | .ok s => scanWords allowed s none ws
        | .error e => .error e

/-- Scans the words up to the name of a command. Returns the name and the words behind it. -/
def scanHead (s : Seen) (pending : Option Opt) :
    List String → Except Stop (Seen × String × List String)
  | [] => .error .misuse
  | w :: ws =>
    match pending with
    | some o =>
      if looksLikeOption w then .error .misuse
      else
        match s.setValue o w with
        | .ok s => scanHead s none ws
        | .error e => .error e
    | none =>
      if w = "--" then .error .misuse
      else if looksLikeOption w then
        match readOption [.verbose, .config, .help, .version] s w with
        | .ok (s, pending) => scanHead s pending ws
        | .error e => .error e
      else .ok (s, w, ws)

/-! ## Requests -/

/-- The options of a command besides those of every command. -/
def CommandName.options : CommandName → List Opt
  | .compile | .build => [.output]
  | .check | .raw => []
  | .ast => [.json]
  | .test => [.filter]

/-- Where the test suites are if no path is named. -/
def suiteDirectory : String := "tests/suites"

/-- The task of a command with the given options and word. Only the path of `test` may be
missing. -/
def taskOf (c : CommandName) (s : Seen) : Option Task :=
  match c, s.word with
  | .compile, some file => some (.compile file (s.value? .output))
  | .check, some file => some (.check file)
  | .ast, some file => some (.ast file (s.flags.contains .json))
  | .raw, some file => some (.raw file)
  | .build, some file => some (.build file (s.value? .output))
  | .test, path => some (.test (path.getD suiteDirectory) (s.value? .filter))
  | _, none => none

def Stop.request (topic : Option CommandName) : Stop → Request
  | .version => .version
  | .help => .help topic
  | .misuse => .misuse

def helpRequest : List String → Request
  | [] | ["help"] => .help none
  | [w] =>
    match CommandName.ofWord? w with
    | some c => .help (some c)
    | none => .misuse
  | _ => .misuse

/-- What the words behind a command ask for. `head` is what was seen before the command. -/
def commandRequest (c : CommandName) (head : Seen) (ws : List String) : Request :=
  match scanWords (c.options ++ [.verbose, .config, .help]) {} none ws with
  | .error e => e.request (some c)
  | .ok s =>
    match taskOf c s with
    | none => .misuse
    | some task =>
      .run {
        -- the two counts are not added up: the one behind the command replaces the other
        verbosity := if s.verbosity = 0 then head.verbosity else s.verbosity
        config := (s.value? .config).or (head.value? .config)
        task }

/-- What a command line asks for. -/
def parse (args : List String) : Request :=
  match scanHead {} none args with
  | .error e => e.request none
  | .ok (head, w, ws) =>
    if w = "help" then helpRequest ws
    else
      match CommandName.ofWord? w with
      | some c => commandRequest c head ws
      | none => .misuse

end ExprScript.Command
