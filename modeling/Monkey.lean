import Monkey.Main
import Monkey.Proofs.Printing.RoundTrip
import Monkey.Proofs.Evaluation.Frame
import Monkey.Proofs.Evaluation.Agreement
import Monkey.Proofs.Evaluation.Limit
import Monkey.Proofs.Evaluation.Control
import Monkey.Proofs.Parsing.Recovery
import Monkey.Proofs.Parsing.Balance
import Monkey.Proofs.Parsing.Composition
import Monkey.Proofs.Values.Data
import Monkey.Proofs.Values.Literal
import Monkey.Proofs.Values.Code
import Monkey.Proofs.Evaluation.Divergence
import Monkey.Proofs.Lexing.Cover
import Monkey.Proofs.Evaluation.Identity
import Monkey.Proofs.Evaluation.Repetition
import Monkey.Proofs.Evaluation.Scopes
import Monkey.Proofs.Evaluation.Lines
import Monkey.Proofs.Parsing.Body
import Monkey.Proofs.Parsing.Order
import Monkey.Proofs.Parsing.Progress
import Monkey.Proofs.Evaluation.Lookup
import Monkey.Proofs.Values.Maps
import Monkey.Proofs.Lexing.Spacing
import Monkey.Proofs.Values.Listing
import Monkey.Proofs.Evaluation.Arithmetic
import Monkey.Proofs.Lexing.Maximal
import Monkey.Proofs.Evaluation.FunctionFree
import Monkey.Proofs.Lexing.Quoting
import Monkey.Proofs.Evaluation.Arrays
