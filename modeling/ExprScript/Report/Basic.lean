import ExprScript.Check.Rule
import ExprScript.Raw.SyntaxError
import ExprScript.Tree.BuildError

set_option autoImplicit false

/-! # Error reports

A `Report` is an error as its reader meets it: what went wrong, in which phase, and where in the
text it concerns. The place is a `Region` of bytes. A region that does not fit into the text is
never shown: the primary region is then the start of the text, and a diagnostic goes without
a label.
-/

namespace ExprScript

/-! ## Regions -/

/-- A number of bytes from an offset on. -/
structure Region where
  offset : Nat
  len : Nat
deriving DecidableEq, Repr

namespace Region

def start : Region := ⟨0, 0⟩

/-- Whether a region lies within the first `n` bytes. -/
def fits (r : Region) (n : Nat) : Bool := r.offset + r.len ≤ n

def ofSpan (s : Span) : Region := ⟨s.start.offset, s.len⟩

end Region

/-! ## Texts -/

structure SourceText where
  name : String
  content : String
deriving DecidableEq, Repr

namespace SourceText

/-- A stand-in where there is no text to point into. -/
def fallback (about : String) : SourceText := ⟨"fallback", "// " ++ about⟩

/-- The stand-in when nothing is known about the text either. -/
def unknown : SourceText := fallback "no source"

def size (s : SourceText) : Nat := s.content.utf8ByteSize

end SourceText

/-! ## What went wrong -/

inductive Fault where
  | syntaxError (message : String)
  | unknownNodeType (tag : String)
  | malformedNode (message : String)
  | semantic (diagnostics : List Diagnostic)
  | io (path : String) (message : String)
  | config (message : String)
  | internal (message : String)
deriving DecidableEq, Repr

inductive FaultCategory where
  | syntaxError
  | build
  | semantic
  | io
  | config
  | internal
deriving DecidableEq, Repr

namespace Fault

def category : Fault → FaultCategory
  | .syntaxError _ => .syntaxError
  | .unknownNodeType _ | .malformedNode _ => .build
  | .semantic _ => .semantic
  | .io _ _ => .io
  | .config _ => .config
  | .internal _ => .internal

/-- The last part of the code of a fault. -/
def codeName : Fault → String
  | .syntaxError _ => "syntax_error"
  | .unknownNodeType _ => "unknown_node_type"
  | .malformedNode _ => "malformed_node"
  | .semantic _ => "undefined_identifier"
  | .io _ _ => "read_failed"
  | .config _ => "invalid_config"
  | .internal _ => "internal"

/-- What to do about a fault. -/
def help? : Fault → Option String
  | .unknownNodeType _ | .malformedNode _ =>
    some "the raw tree does not match this compiler's node set"
  | .semantic _ => some "declare the name before using it, or list it under `analyzer.globals`"
  | .internal _ => some "this is a compiler bug, please report it"
  | .syntaxError _ | .io _ _ | .config _ => none

/-- The label at the primary region of a fault. -/
def label : Fault → String
  | .syntaxError _ => "unexpected input"
  | .unknownNodeType _ => "unknown node"
  | .malformedNode _ => "malformed node"
  | .semantic _ => "not defined"
  | .io _ _ => "read failed"
  | .config _ => "invalid configuration"
  | .internal _ => "internal error"

/-- The diagnostics of a program that did not pass its checks. -/
def diagnostics : Fault → List Diagnostic
  | .semantic diagnostics => diagnostics
  | _ => []

def message : Fault → String
  | .syntaxError message => "Syntax error: " ++ message
  | .unknownNodeType tag => "Build error: unknown node type: " ++ tag
  | .malformedNode message => "Build error: " ++ message
  | .semantic diagnostics =>
    "Semantic error: " ++ "; ".intercalate (diagnostics.map Diagnostic.message)
  | .io path message => "I/O error: " ++ path ++ ": " ++ message
  | .config message => "Configuration error: " ++ message
  | .internal message => "Internal error: " ++ message

/-- The fault that a fault of a raw tree is reported as. -/
def ofBuildError (e : BuildError) : Fault :=
  match e.fault with
  | .unknownType => .unknownNodeType e.tag
  | _ => .malformedNode e.message

end Fault

/-! ## Reports -/

structure Report where
  fault : Fault
  source : SourceText
  phase : String
  primary : Region
deriving DecidableEq, Repr

namespace Report

def create (source : SourceText) (phase : String) (fault : Fault) (region : Region) : Report :=
  ⟨fault, source, phase, if region.fits source.size then region else .start⟩

def ofSyntaxError (source : SourceText) (phase : String) (e : SyntaxError) : Report :=
  create source phase (.syntaxError e.message) (.ofSpan e.span)

def ofBuildError (source : SourceText) (phase : String) (e : BuildError) : Report :=
  create source phase (.ofBuildError e) (.ofSpan e.span)

/-- Reports the diagnostics of a program; the first one gives the primary region. -/
def ofDiagnostics (source : SourceText) (phase : String) (ds : List Diagnostic) : Report :=
  create source phase (.semantic ds)
    (match ds with
      | d :: _ => .ofSpan d.span
      | [] => .start)

def code (r : Report) : String := "kiba::" ++ r.phase ++ "::" ++ r.fault.codeName

def message (r : Report) : String := r.fault.message

/-- The regions of a report that are shown, each with its label. -/
def labels (r : Report) : List (Region × String) :=
  match r.fault with
  | .semantic ds =>
    -- each diagnostic is shown at its own region, also the first one
    (ds.map fun d => (Region.ofSpan d.span, d.message)).filter fun l => l.1.fits r.source.size
  | fault => [(r.primary, fault.label)]

end Report

end ExprScript
