import ExprScript.Script.Lines

set_option autoImplicit false

/-! # Differences between two texts

Two texts are compared line by line. First the lines they have in common are found, by a walk
from the ends of the texts back through the table of lengths of longest common subsequences.
Then both texts are read side by side against these lines: what both have is the same, what
only the first has was removed, and what only the second has was added.

The walk steps back in the second text where that keeps more in common, and in the first
otherwise. The table is kept in one row after the other, and the entry before the first of a
row is the last of the row above; a step back from there ends the walk.
-/

namespace ExprScript.Diff

/-- The pieces of a text between its line feeds; there is always at least one. -/
def splitFeeds (back : List Char) : List Char → List String
  | [] => [String.ofList back.reverse]
  | c :: cs =>
    if c = '\n' then String.ofList back.reverse :: splitFeeds [] cs
    else splitFeeds (c :: back) cs

def pieces (text : String) : List String := splitFeeds [] text.toList

/-- The pieces of a text between its line feeds, none for the empty text. -/
def piecesOrNone (text : String) : List String := if text.isEmpty then [] else pieces text

/-! ## The table -/

/-- The row of the table for the line `a` of the first text: `above` is the rest of the row
before it, `corner` the entry before that, and `left` the entry to the left. -/
def nextRow (a : String) : List String → List Nat → Nat → Nat → List Nat
  | b :: bs, up :: above, corner, left =>
    let entry := if a = b then corner + 1 else max up left
    entry :: nextRow a bs above up entry
  | _, _, _, _ => []

/-- The rows of the table below the row `above`, for the lines of the first text. -/
def rowsFrom (bs : List String) : List Nat → List String → List (List Nat)
  | _, [] => []
  | above, a :: as =>
    let row := nextRow a bs above 0 0
    row :: rowsFrom bs row as

/-- The lengths of the longest common subsequences of the beginnings of two texts, row after
row. -/
def table (as bs : List String) : Array Nat :=
  ((rowsFrom bs (bs.map fun _ => 0) as).flatten).toArray

/-! ## The walk -/

/-- The common lines found from the line `i` of the first text and the line `j` of the second
back, last line first, where `m` is the number of lines of the second text. -/
def walkBack (as bs : Array String) (t : Array Nat) (m : Nat) : Nat → Nat → Nat → List String
  | 0, _, _ => []
  | n + 1, i, j =>
    let a := as.getD i ""
    if a = bs.getD j "" then
      -- nothing is in common with what lies before the first line
      if i = 0 || j = 0 then [a] else a :: walkBack as bs t m n (i - 1) (j - 1)
    else if i = 0 && j = 0 then []
    else if i = 0 || t.getD (i * m + j - 1) 0 > t.getD ((i - 1) * m + j) 0 then
      if j = 0 then [] else walkBack as bs t m n i (j - 1)
    else walkBack as bs t m n (i - 1) j

def common (as bs : List String) : List String :=
  (walkBack as.toArray bs.toArray (table as bs) bs.length (as.length + bs.length)
    (as.length - 1) (bs.length - 1)).reverse

/-! ## The differences -/

/-- Whether a run of lines is in both texts, only in the first, or only in the second. -/
inductive Change where
  | same
  | removed
  | added
deriving DecidableEq, Repr

/-- The lines that begin all three lists, and what is left of each. -/
def sharedRun : List String → List String → List String →
    List String × List String × List String × List String
  | a :: as, b :: bs, c :: cs =>
    if a = b && b = c then
      let (run, as, bs, cs) := sharedRun as bs cs
      (a :: run, as, bs, cs)
    else ([], a :: as, b :: bs, c :: cs)
  | as, bs, cs => ([], as, bs, cs)

/-- A run of changes, unless there are no lines in it. -/
def runOf (change : Change) (lines : List String) : List (Change × String) :=
  if lines.isEmpty then [] else [(change, "\n".intercalate lines)]

/-- The runs of changes from the text `as` to the text `bs`, which have `cs` in common. -/
def merge : Nat → List String → List String → List String → List (Change × String)
  | 0, _, _, _ => []
  | n + 1, as, bs, cs =>
    if as.isEmpty && bs.isEmpty then []
    else
      let (run, as, bs, cs) := sharedRun as bs cs
      -- up to the next line in common, each text has its lines to itself
      let differs (x : String) : Bool := cs.head? != some x
      runOf .same run ++ runOf .removed (as.takeWhile differs) ++
        runOf .added (bs.takeWhile differs) ++
        merge n (as.dropWhile differs) (bs.dropWhile differs) cs

def changes (expected actual : String) : List (Change × String) :=
  let shared := "\n".intercalate (common (pieces expected) (pieces actual))
  let as := piecesOrNone expected
  let bs := piecesOrNone actual
  merge (as.length + bs.length + 1) as bs (piecesOrNone shared)

def Change.sign : Change → String
  | .same => " "
  | .removed => "-"
  | .added => "+"

/-- The lines that show the changes from one text to another. -/
def report (expected actual : String) : List String :=
  (changes expected actual).flatMap fun (change, text) =>
    (linesOf text).map fun line => "    " ++ change.sign ++ line

end ExprScript.Diff
