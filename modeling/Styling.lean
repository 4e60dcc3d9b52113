import Styling.Json.Quoting
import Styling.Main
import Styling.Proofs.Cascade.Failures
import Styling.Proofs.Cascade.Growth
import Styling.Proofs.Cascade.Monotone
import Styling.Proofs.Cascade.NonElements
import Styling.Proofs.Cascade.Renewal
import Styling.Proofs.Cascade.TurnedOn
import Styling.Proofs.Document.Moves
import Styling.Proofs.Document.Preorder
import Styling.Proofs.Document.Reached
import Styling.Proofs.ElementPath.Accepted
import Styling.Proofs.Reference
import Styling.Proofs.Selector.Reading
import Styling.Proofs.Sheet.FaultOrder
import Styling.Proofs.Sheet.Inline
import Styling.Proofs.Sheet.Lists
import Styling.Proofs.Sheet.Normal
import Styling.Proofs.Sheet.Rounds
import Styling.Proofs.Sheet.Skipped
import Styling.Proofs.Sheet.Thinned
import Styling.Proofs.Token.Pointer
import Styling.Proofs.Token.Scanner
import Styling.Proofs.Token.Sequences
import Styling.Proofs.Token.Values
import Styling.Proofs.Token.Verbatim
import Styling.Proofs.Token.WellFormed
import Styling.Proofs.Warnings
import Styling.Sheet.Session
import Styling.Warning
