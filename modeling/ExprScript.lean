import ExprScript.Main
import ExprScript.Proofs.Check.Undefined
import ExprScript.Proofs.Script.RoundTrip
import ExprScript.Proofs.Tree.WellFormed
import ExprScript.Proofs.Script.Lead
import ExprScript.Proofs.Script.StandardLibrary
import ExprScript.Proofs.Script.Statements
import ExprScript.Proofs.Script.ArrowBody
import ExprScript.Proofs.Raw.Concatenation
import ExprScript.Proofs.Raw.Exchange
import ExprScript.Proofs.Raw.Relayout
import ExprScript.Proofs.Raw.Spans
import ExprScript.Proofs.Scope.Enclosure
import ExprScript.Proofs.Tree.Counter
import ExprScript.Proofs.Tree.Irrelevance
import ExprScript.Proofs.Peg.Furthest
import ExprScript.Proofs.Raw.Faults
import ExprScript.Proofs.Report.Locations
import ExprScript.Proofs.Raw.Leaves
import ExprScript.Proofs.Script.Indentation
import ExprScript.Proofs.Script.Quoting
import ExprScript.Proofs.Script.StringLiterals
import ExprScript.Proofs.Raw.IntegerRange
import ExprScript.Proofs.Script.LineEnds
import ExprScript.Proofs.Scope.PostOrder
import ExprScript.Proofs.Tree.Listing
import ExprScript.Proofs.Tree.Object
import ExprScript.Source.LetterCase
