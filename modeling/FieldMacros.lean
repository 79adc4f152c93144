import FieldMacros.CommandLine.Canonical
import FieldMacros.Console.Escape
import FieldMacros.FileTree.Edit
import FieldMacros.Main
import FieldMacros.Preprocessor.Expansion
import FieldMacros.Proofs.Header.Lines
import FieldMacros.Proofs.Preprocessor.Expansion
import FieldMacros.Text.Occurrence
import FieldMacros.Proofs.Header.Resolution
import FieldMacros.Proofs.Header.Arity
import FieldMacros.Proofs.Diff.Faithful
import FieldMacros.Proofs.Diff.Frame
import FieldMacros.Proofs.Console.Marks
import FieldMacros.Proofs.Header.Versions
import FieldMacros.Proofs.FileTree.Walk
import FieldMacros.Proofs.FileTree.Replace
import FieldMacros.Proofs.FileTree.PlainName
import FieldMacros.Proofs.Run.Modes
import FieldMacros.Proofs.Run.Safety
import FieldMacros.Proofs.Run.History
import FieldMacros.Proofs.FileTree.Reread
import FieldMacros.Proofs.Run.Agreement
import FieldMacros.Proofs.Text.Encoding
import FieldMacros.Proofs.Run.Acceptance
import FieldMacros.CommandLine.Arrangement
import FieldMacros.Proofs.CommandLine.Validity
import FieldMacros.Proofs.CommandLine.Reading
import FieldMacros.Proofs.CommandLine.RoundTrip
import FieldMacros.Proofs.CommandLine.Arrangement
import FieldMacros.Proofs.Text.Occurrences
import FieldMacros.Proofs.Header.Layout
import FieldMacros.Proofs.FileTree.Journey
import FieldMacros.Proofs.Run.Verbosity
import FieldMacros.Proofs.Run.Check
import FieldMacros.Proofs.Run.Missing
import FieldMacros.Proofs.Diff.Extension
import FieldMacros.Proofs.Console.Tally
import FieldMacros.Proofs.Console.Colors
import FieldMacros.Proofs.Header.Growth
import FieldMacros.Proofs.Header.References
import FieldMacros.Proofs.Header.Hygiene
import FieldMacros.Proofs.Header.Sizes
import FieldMacros.Proofs.Run.Admission
