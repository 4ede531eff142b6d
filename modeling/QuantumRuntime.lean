import QuantumRuntime.Handle
import QuantumRuntime.Layout.Range
import QuantumRuntime.Layout.Stride
import QuantumRuntime.Decimal.Binary
import QuantumRuntime.Decimal.Fixed
import QuantumRuntime.Decimal.Reading
import QuantumRuntime.Schedule.Coloring
import QuantumRuntime.Text.Blank
import QuantumRuntime.Config.Error
import QuantumRuntime.Config.Flag
import QuantumRuntime.Yaml.Char
import QuantumRuntime.Yaml.Cursor
import QuantumRuntime.Yaml.Token
import QuantumRuntime.Yaml.Scalar
import QuantumRuntime.Yaml.Property
import QuantumRuntime.Yaml.Scanner
import QuantumRuntime.Yaml.Event
import QuantumRuntime.Yaml.Parser
import QuantumRuntime.Yaml.Document
import QuantumRuntime.Config.Settings
import QuantumRuntime.Config.Runtime
import QuantumRuntime.Config.Tracer
import QuantumRuntime.SortedMap
import QuantumRuntime.Backend.Error
import QuantumRuntime.Backend.Config
import QuantumRuntime.Trace.Layer
import QuantumRuntime.Trace.Tracer
import QuantumRuntime.Trace.Metrics
import QuantumRuntime.Width.Interference
import QuantumRuntime.Backend.Gate
import QuantumRuntime.Width.Estimator
import QuantumRuntime.Backend.Recorder
import QuantumRuntime.Backend.Basic
import QuantumRuntime.Machine.Key
import QuantumRuntime.Callable.Table
import QuantumRuntime.Machine.Error
import QuantumRuntime.Machine.Tracker
import QuantumRuntime.Layout.Word
import QuantumRuntime.Machine.Counts
import QuantumRuntime.Machine.ItemArray
import QuantumRuntime.Machine.ByteTuple
import QuantumRuntime.Callable.Routine
import QuantumRuntime.Callable.Object
import QuantumRuntime.Machine.Output
import QuantumRuntime.Machine.Journal
import QuantumRuntime.Machine.State
import QuantumRuntime.Machine.Strings
import QuantumRuntime.Machine.Results
import QuantumRuntime.Machine.Messages
import QuantumRuntime.Machine.Arrays
import QuantumRuntime.Machine.Tuples
import QuantumRuntime.Machine.Gates
import QuantumRuntime.Machine.Tracing
import QuantumRuntime.Machine.Invoke
import QuantumRuntime.Proofs.SortedMap
import QuantumRuntime.Proofs.Layout.Range
import QuantumRuntime.Proofs.Schedule.Sweep
import QuantumRuntime.Proofs.Schedule.Colouring
import QuantumRuntime.Proofs.Width.Report
import QuantumRuntime.Proofs.Width.Cores
import QuantumRuntime.Proofs.Width.Depth
import QuantumRuntime.Proofs.Width.Dependents
import QuantumRuntime.Proofs.Width.Peak
import QuantumRuntime.Proofs.Trace.Steps
import QuantumRuntime.Proofs.Trace.Wellformed
import QuantumRuntime.Proofs.Trace.Conservation
import QuantumRuntime.Proofs.Trace.Barrier
import QuantumRuntime.Proofs.Trace.Fence
import QuantumRuntime.Proofs.Trace.FirstFit
import QuantumRuntime.Proofs.Trace.Refusal
import QuantumRuntime.Proofs.Trace.Monotone
import QuantumRuntime.Proofs.Trace.InPlace
import QuantumRuntime.Proofs.Machine.Agreement
import QuantumRuntime.Proofs.Machine.Keeps
import QuantumRuntime.Proofs.Machine.Tracking
import QuantumRuntime.Proofs.Machine.Interning
import QuantumRuntime.Proofs.Machine.Handover
import QuantumRuntime.Proofs.Machine.Ownership
import QuantumRuntime.Proofs.Machine.Layout
import QuantumRuntime.Proofs.Machine.Slicing
import QuantumRuntime.Proofs.Machine.Sizing
import QuantumRuntime.Proofs.Machine.Functors
import QuantumRuntime.Proofs.Machine.Flattening
import QuantumRuntime.Proofs.Machine.Counting
import QuantumRuntime.Proofs.Machine.Copying
import QuantumRuntime.Proofs.Machine.Conditional
import QuantumRuntime.Proofs.Machine.ResultCounts
import QuantumRuntime.Proofs.Machine.Redirection
import QuantumRuntime.Proofs.Machine.Fields
import QuantumRuntime.Proofs.Machine.Making
import QuantumRuntime.Proofs.Machine.Addressing
