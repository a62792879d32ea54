import PriceFormula.Main
import PriceFormula.Proofs.Expr.Phrase
import PriceFormula.Proofs.Expr.Cursor
import PriceFormula.Proofs.Expr.Soundness
import PriceFormula.Proofs.Expr.Completeness
import PriceFormula.Proofs.Expr.Grammar
import PriceFormula.Proofs.Expr.Checked
import PriceFormula.Proofs.Expr.Metered
import PriceFormula.Proofs.Expr.Size
import PriceFormula.Proofs.Bindings
import PriceFormula.Proofs.Pricing.Selection
import PriceFormula.Proofs.Expr.Variables
import PriceFormula.Proofs.Expr.Spelling
import PriceFormula.Proofs.Text.Rewriting
import PriceFormula.Proofs.Text.Encoding
import PriceFormula.Proofs.Formula.Respelling
import PriceFormula.Proofs.Formula.Piece
import PriceFormula.Proofs.Formula.References
import PriceFormula.Proofs.Number.Nearest
import PriceFormula.Proofs.Number.Packing
import PriceFormula.Proofs.Number.Arithmetic
import PriceFormula.Proofs.Number.Range
import PriceFormula.Proofs.Number.Reading
import PriceFormula.Proofs.Number.Shortest
import PriceFormula.Proofs.Json.Numbers
import PriceFormula.Proofs.Json.Strings
import PriceFormula.Proofs.Json.Loops
import PriceFormula.Proofs.Json.Values
import PriceFormula.Proofs.Json.Printable
import PriceFormula.Proofs.Pricing.Answer
import PriceFormula.Proofs.Json.Magnitude
import PriceFormula.Proofs.Json.Readings
import PriceFormula.Proofs.Json.Decoding
import PriceFormula.Proofs.Pricing.Mentioned
import PriceFormula.Proofs.Pricing.Missing
import PriceFormula.Proofs.Formula.Encoding
import PriceFormula.Proofs.Formula.Braced
import PriceFormula.Proofs.Expr.Minimal
import PriceFormula.Proofs.Expr.Writing
import PriceFormula.Proofs.Expr.Printing
import PriceFormula.Proofs.CommandLine.Agreement
import PriceFormula.Proofs.Json.Kept
import PriceFormula.Proofs.Pricing.Configuration
import PriceFormula.Proofs.CommandLine.Overriding
import PriceFormula.Proofs.Expr.Beginning
import PriceFormula.Proofs.Expr.Complaint
import PriceFormula.Proofs.Text.Marking
import PriceFormula.Proofs.Formula.Fields
import PriceFormula.Proofs.Pricing.Lines
import PriceFormula.Proofs.Pricing.Fallback
import PriceFormula.Proofs.Number.Closest
import PriceFormula.Proofs.Number.Whole
import PriceFormula.Proofs.Expr.Remainder
import PriceFormula.Proofs.Expr.Numerals
import PriceFormula.Proofs.Number.Integral
import PriceFormula.Proofs.Number.Places
import PriceFormula.Proofs.Number.Scaling
import PriceFormula.Proofs.Pricing.Numerals
import PriceFormula.Proofs.Text.ByteOrder
import PriceFormula.Proofs.Bindings.History
import PriceFormula.Proofs.Text.MarkedOrder
import PriceFormula.Proofs.Pricing.MissingOrder
import PriceFormula.Proofs.Expr.Calls
import PriceFormula.Proofs.Formula.ConstantCall
import PriceFormula.Proofs.Number.Overflow
import PriceFormula.Proofs.Expr.Counters
import PriceFormula.Proofs.Expr.Tiling
