import BuildConfig.Baseline.Evaluation
import BuildConfig.Baseline.Evaluator
import BuildConfig.Baseline.Request
import BuildConfig.Bundle.Basic
import BuildConfig.Bundle.Changes
import BuildConfig.Bundle.Flags
import BuildConfig.Bundle.Stream
import BuildConfig.Bundle.View
import BuildConfig.Configuration
import BuildConfig.Digest.Blake3
import BuildConfig.Evaluation.Environment
import BuildConfig.Evaluation.Failure
import BuildConfig.Evaluation.Key
import BuildConfig.Evaluation.Machine
import BuildConfig.Evaluation.Script
import BuildConfig.Evaluation.Session
import BuildConfig.Evaluation.Slot
import BuildConfig.Evaluation.Store
import BuildConfig.Flag
import BuildConfig.Json.Basic
import BuildConfig.Json.Reader
import BuildConfig.Json.Token
import BuildConfig.Kind
import BuildConfig.Label
import BuildConfig.Mapping.Batch
import BuildConfig.Mapping.Error
import BuildConfig.Mapping.Location
import BuildConfig.Mapping.Reader
import BuildConfig.Mapping.Rules
import BuildConfig.OptionName
import BuildConfig.OptionsError
import BuildConfig.Proofs.Baseline.Delivery
import BuildConfig.Proofs.Baseline.Guards
import BuildConfig.Proofs.Baseline.HeldBatch
import BuildConfig.Proofs.Baseline.Interruption
import BuildConfig.Proofs.Baseline.Journal
import BuildConfig.Proofs.Baseline.Meaning
import BuildConfig.Proofs.Baseline.NeverStuck
import BuildConfig.Proofs.Baseline.Override
import BuildConfig.Proofs.Baseline.Published
import BuildConfig.Proofs.Baseline.Refinement
import BuildConfig.Proofs.Baseline.Register
import BuildConfig.Proofs.Baseline.SingleBatch
import BuildConfig.Proofs.Baseline.Stopping
import BuildConfig.Proofs.Baseline.Termination
import BuildConfig.Proofs.Bundle.Agreement
import BuildConfig.Proofs.Bundle.Assignment
import BuildConfig.Proofs.Bundle.Changes
import BuildConfig.Proofs.Bundle.Errors
import BuildConfig.Proofs.Bundle.Flags
import BuildConfig.Proofs.Bundle.Holding
import BuildConfig.Proofs.Bundle.Shape
import BuildConfig.Proofs.Bundle.Stream
import BuildConfig.Proofs.Bundle.View
import BuildConfig.Proofs.Distinct
import BuildConfig.Proofs.Evaluation.Answers
import BuildConfig.Proofs.Evaluation.Attempts
import BuildConfig.Proofs.Evaluation.Cancellation
import BuildConfig.Proofs.Evaluation.Driving
import BuildConfig.Proofs.Evaluation.Entries
import BuildConfig.Proofs.Evaluation.History
import BuildConfig.Proofs.Evaluation.Behaviour
import BuildConfig.Proofs.Evaluation.Lookups
import BuildConfig.Proofs.Evaluation.Requests
import BuildConfig.Proofs.Evaluation.Rounds
import BuildConfig.Proofs.Evaluation.Runs
import BuildConfig.Proofs.Evaluation.Steps
import BuildConfig.Proofs.Flag.RoundTrip
import BuildConfig.Proofs.Label.Grammar
import BuildConfig.Proofs.Mapping.Arrival
import BuildConfig.Proofs.Mapping.EachBundle
import BuildConfig.Proofs.Mapping.Fetching
import BuildConfig.Proofs.Mapping.Grammar
import BuildConfig.Proofs.Mapping.Protocol
import BuildConfig.Proofs.Mapping.Reading
import BuildConfig.Proofs.Mapping.Rules
import BuildConfig.Proofs.Mapping.Stability
import BuildConfig.Proofs.Mapping.Termination
import BuildConfig.Proofs.SortedMap
import BuildConfig.Proofs.Text.ByteOrder
import BuildConfig.Proofs.Text.LineErrors
import BuildConfig.Proofs.Text.Numbering
import BuildConfig.Proofs.Text.RoundTrip
import BuildConfig.Proofs.Transition.ExecSettings
import BuildConfig.Proofs.Transition.Grammar
import BuildConfig.Proofs.Transition.Isolation
import BuildConfig.Proofs.Transition.Locality
import BuildConfig.Proofs.Transition.Reading
import BuildConfig.Proofs.Value.Canonical
import BuildConfig.Proofs.Value.RoundTrip
import BuildConfig.Settings
import BuildConfig.SortedMap
import BuildConfig.Text.Blank
import BuildConfig.Text.Decimal
import BuildConfig.Text.Lines
import BuildConfig.Text.Quoted
import BuildConfig.Text.Split
import BuildConfig.Transition.Custom
import BuildConfig.Transition.Error
import BuildConfig.Transition.Exec
import BuildConfig.Transition.Loading
import BuildConfig.Transition.Patch
import BuildConfig.Value
