import SumProduct.Bindings.Lemmas
import SumProduct.Expr.PostOrder
import SumProduct.Expr.Hash
import SumProduct.Grammar.Walk
import SumProduct.Data.Expr
import SumProduct.Data.Tree
import SumProduct.Worksheet
import SumProduct.Proofs.Token.Pattern
import SumProduct.Proofs.Token.Boundary
import SumProduct.Proofs.Grammar.Run
import SumProduct.Proofs.Grammar.Derivation
import SumProduct.Proofs.Grammar.Acceptance
import SumProduct.Proofs.Grammar.Pass
import SumProduct.Proofs.Grammar.Viability
import SumProduct.Proofs.Grammar.Bounds
import SumProduct.Proofs.Grammar.Regions
import SumProduct.Proofs.Grammar.RoundTrip
import SumProduct.Proofs.Number.Exact
import SumProduct.Proofs.Number.Shortest
import SumProduct.Proofs.Expr.RoundTrip
import SumProduct.Proofs.Expr.Safety
import SumProduct.Proofs.Simplify.BottomUp
import SumProduct.Proofs.Simplify.NormalForm
import SumProduct.Proofs.Simplify.RoundTrip
import SumProduct.Proofs.Derivative.Polynomial
import SumProduct.Proofs.Derivative.Simplified
import SumProduct.Proofs.Derivative.Degree
import SumProduct.Proofs.Simplify.Stages
import SumProduct.Proofs.Simplify.Value
import SumProduct.Proofs.Grammar.Slices
import SumProduct.Proofs.Grammar.Spacing
import SumProduct.Proofs.Token.Longest
import SumProduct.Proofs.Grammar.Discipline
import SumProduct.Proofs.Number.Stored
import SumProduct.Proofs.Expr.Identity
import SumProduct.Proofs.Simplify.Steps
import SumProduct.Proofs.Expr.Canonical
import SumProduct.Proofs.Grammar.Anchors
import SumProduct.Proofs.Grammar.Agreement
import SumProduct.Proofs.Simplify.Symbols
import SumProduct.Proofs.Derivative.Growth
import SumProduct.Proofs.Bindings.Run
import SumProduct.Proofs.Simplify.Records
import SumProduct.Proofs.Grammar.Climbing
