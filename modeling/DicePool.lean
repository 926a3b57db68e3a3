import DicePool.Bounded
import DicePool.CommandLine.Invocation
import DicePool.CommandLine.Run
import DicePool.Condition
import DicePool.Description
import DicePool.Draw
import DicePool.Form.Modifier
import DicePool.Form.PoolSpec
import DicePool.Form.Record
import DicePool.Json.Basic
import DicePool.Json.Double
import DicePool.Json.Fields
import DicePool.Json.Printer
import DicePool.Json.Reader
import DicePool.Modifier.Basic
import DicePool.Modifier.Burst
import DicePool.Modifier.Drop
import DicePool.Modifier.Kind
import DicePool.Modifier.Replacement
import DicePool.Modifier.Reroll
import DicePool.Modifier.Unique
import DicePool.Notation.Reader
import DicePool.Notation.Spelling
import DicePool.Notation.Term
import DicePool.Notation.Token
import DicePool.Pool
import DicePool.PoolSpec
import DicePool.Record
import DicePool.Report
import DicePool.Roll
import DicePool.RollError
import DicePool.Source.ChaCha
import DicePool.Source.Roller
import DicePool.Tally
import DicePool.Text.Blank
import DicePool.Text.Decimal
import DicePool.Main
import DicePool.Proofs.Notation.Grammar
import DicePool.Proofs.Notation.Numeral
import DicePool.Proofs.Notation.Term
import DicePool.Proofs.Notation.Token
import DicePool.Proofs.Notation.Reader
import DicePool.Proofs.Notation.Acceptance
import DicePool.Proofs.Pool.Normal
import DicePool.Proofs.Notation.Spelling
import DicePool.Proofs.Notation.Blank
import DicePool.Proofs.Notation.RoundTrip
import DicePool.Proofs.Notation.Canonical
import DicePool.Proofs.Roll.Replay
import DicePool.Proofs.Roll.Completion
import DicePool.Proofs.Roll.Requests
import DicePool.Proofs.Roll.Size
import DicePool.Proofs.Roll.Unique
import DicePool.Proofs.Notation.Faces
import DicePool.Proofs.Roll.Agreement
import DicePool.Proofs.Form.Modifier
import DicePool.Proofs.Form.PoolSpec
import DicePool.Proofs.Roll.Stages
import DicePool.Proofs.Roll.Values
import DicePool.Proofs.Roll.Cost
import DicePool.Proofs.Roll.Exact
import DicePool.Proofs.Roll.Drop
import DicePool.Proofs.Roll.Keep
import DicePool.Proofs.Form.Record
import DicePool.Proofs.Roll.Faces
import DicePool.Proofs.Text.Order
import DicePool.Proofs.Form.Keys
import DicePool.Proofs.Roll.Turns
import DicePool.Proofs.Roll.Reroll
import DicePool.Proofs.Roll.Duplicates
import DicePool.Proofs.Roll.Growth
import DicePool.Proofs.Roll.Idle
import DicePool.Proofs.Roll.Difference
import DicePool.Proofs.Roll.Replacement
import DicePool.Proofs.Notation.Independence
import DicePool.Proofs.Notation.Stopping
import DicePool.Proofs.Notation.Lists
import DicePool.Proofs.Notation.Case
import DicePool.Proofs.Roll.Cap
import DicePool.Proofs.Notation.Runs
import DicePool.Proofs.Pool.Listing
