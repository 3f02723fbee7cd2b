import ExprScript.Script.Render

set_option autoImplicit false

/-! # Scripts with the standard library

A `Generator` renders one tree after the other and remembers whether any of them has read a
property of the standard library so far. A complete script begins with the definition of the
library once that is so.
-/

namespace ExprScript

/-- The definition of the standard library that goes in front of a script. -/
def stdShim : String :=
  "// std-library-code\nconst std = \x7b print: console.log \x7d\n//end of std-library-code\n"

/-- One level of indentation unless another is asked for. -/
def defaultIndent : String := "  "

/-- Renders trees with a fixed indent. -/
structure Generator where
  indent : String := defaultIndent
  stdAccessed : Bool := false
deriving Repr, DecidableEq

namespace Generator

/-- The script of a tree, and the generator afterwards. -/
def render? (g : Generator) (n : Node) : Option (String × Generator) :=
  (n.render? g.indent).map fun p =>
    (p.text, { g with stdAccessed := g.stdAccessed || p.usesStd })

/-- The scripts of trees one after the other, and the generator afterwards. -/
def renderAll? (g : Generator) : List Node → Option (List String × Generator)
  | [] => some ([], g)
  | n :: ns =>
    match g.render? n with
    | none => none
    | some (text, g) => (renderAll? g ns).map fun (texts, g) => (text :: texts, g)

def generate? (g : Generator) (program : Node) : Option (String × Generator) :=
  (g.render? program).map fun (text, g) =>
    (if g.stdAccessed then stdShim ++ text else text, g)

end Generator

def generate? (indent : String) (program : Node) : Option String :=
  (Generator.generate? { indent } program).map Prod.fst

end ExprScript
