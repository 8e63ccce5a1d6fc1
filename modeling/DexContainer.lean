import DexContainer.Bytes.Alignment
import DexContainer.Bytes.Leb128
import DexContainer.Bytes.Leb128.Groups
import DexContainer.Bytes.Word
import DexContainer.Command.Arguments
import DexContainer.Command.Directory
import DexContainer.Command.Report
import DexContainer.Command.Run
import DexContainer.Container.Basic
import DexContainer.Container.Canonical
import DexContainer.Container.ClassOrder
import DexContainer.Container.Interning
import DexContainer.Container.Placement
import DexContainer.Container.Reading
import DexContainer.Container.Sections
import DexContainer.Container.Writing
import DexContainer.Content
import DexContainer.Decoding.Lemmas
import DexContainer.Decoding.References
import DexContainer.Decoding.Source
import DexContainer.Digest.Adler32
import DexContainer.Digest.Sha1
import DexContainer.Fault
import DexContainer.Item.Annotations
import DexContainer.Item.ClassData
import DexContainer.Item.ClassDef
import DexContainer.Item.Code
import DexContainer.Item.DebugInfo
import DexContainer.Item.Header
import DexContainer.Item.Identifiers
import DexContainer.Item.MapList
import DexContainer.Item.Places
import DexContainer.Item.Scalar
import DexContainer.Item.StringData
import DexContainer.Item.TypeList
import DexContainer.Item.Value
import DexContainer.Kind
import DexContainer.Main
import DexContainer.Options
import DexContainer.Proofs.Container.Accepting
import DexContainer.Proofs.Container.Closed
import DexContainer.Proofs.Container.Coherence
import DexContainer.Proofs.Container.Copying
import DexContainer.Proofs.Container.Dependencies
import DexContainer.Proofs.Container.Directory
import DexContainer.Proofs.Container.Orders
import DexContainer.Proofs.Container.Placement
import DexContainer.Proofs.Container.Reachable
import DexContainer.Proofs.Container.Reading
import DexContainer.Proofs.Container.Rewriting
import DexContainer.Proofs.Container.Settled
import DexContainer.Proofs.Container.Settling
import DexContainer.Proofs.Container.Sorting
import DexContainer.Proofs.Container.Stacked
import DexContainer.Proofs.Container.Stamping
import DexContainer.Proofs.Container.Writing
import DexContainer.Proofs.Content
import DexContainer.Proofs.Item.AnnotationGroups
import DexContainer.Proofs.Item.Annotations
import DexContainer.Proofs.Item.ClassData
import DexContainer.Proofs.Item.ClassDef
import DexContainer.Proofs.Item.Code.Accepting
import DexContainer.Proofs.Item.Code.Reading
import DexContainer.Proofs.Item.Code.Writing
import DexContainer.Proofs.Item.DebugInfo
import DexContainer.Proofs.Item.Header
import DexContainer.Proofs.Item.Identifiers
import DexContainer.Proofs.Item.MapList
import DexContainer.Proofs.Item.Register
import DexContainer.Proofs.Item.Scalar
import DexContainer.Proofs.Item.StringData
import DexContainer.Proofs.Item.TypeList
import DexContainer.Proofs.Item.Value
import DexContainer.Proofs.Item.Value.Reading
import DexContainer.Proofs.Item.Value.Writing
import DexContainer.Proofs.Item.Widths
import DexContainer.Proofs.Outcome
import DexContainer.Proofs.Reads
import DexContainer.Proofs.Reads.Primitives
import DexContainer.Proofs.References
import DexContainer.Proofs.Renaming
import DexContainer.Proofs.Section.Accepting
import DexContainer.Proofs.Section.Layout
import DexContainer.Proofs.Section.Reading
import DexContainer.Proofs.Section.Slots
import DexContainer.Proofs.Section.Writing
import DexContainer.Proofs.Stamp
import DexContainer.Proofs.Yields
import DexContainer.Section
import DexContainer.Section.Lemmas
import DexContainer.Stamp
import DexContainer.Text.Columns
import DexContainer.Text.Hexadecimal
import DexContainer.Text.ModifiedUtf8
import DexContainer.Text.Structured
import DexContainer.Text.Utf16
import DexContainer.Text.Utf8
import DexContainer.Toml.Document
import DexContainer.Toml.Number
import DexContainer.Toml.Text
import DexContainer.Violation
import DexContainer.Proofs.Container.Stability
import DexContainer.Proofs.Container.Arrangement
import DexContainer.Proofs.Container.Rows
import DexContainer.Proofs.Container.Interning
import DexContainer.Proofs.Container.Operations
import DexContainer.Proofs.Container.Truncation
import DexContainer.Proofs.Item.CodeOffsets
import DexContainer.Proofs.ClassOrder
import DexContainer.Proofs.CodeLoop
import DexContainer.Proofs.Container.Rounds
import DexContainer.Proofs.Container.Building
import DexContainer.Proofs.Container.Unsettled
import DexContainer.Proofs.Item.IndexFields
import DexContainer.Proofs.Container.Indices
import DexContainer.Proofs.Container.Operands
import DexContainer.Proofs.Blind
import DexContainer.Proofs.Item.Blind
import DexContainer.Proofs.Section.Standing
import DexContainer.Proofs.Container.Resolution
import DexContainer.Proofs.Container.Precedence
import DexContainer.Proofs.Container.Resorting
import DexContainer.Proofs.Container.Replacing
import DexContainer.Proofs.Command.Arguments
import DexContainer.Proofs.Command
import DexContainer.Proofs.Parallel
import DexContainer.Proofs.Item.Parallel
import DexContainer.Proofs.Container.RowOrder
import DexContainer.Proofs.Container.Parallel
import DexContainer.Proofs.Container.Direction
import DexContainer.Proofs.Container.Canonicity
import DexContainer.Proofs.Container.CanonicalOrder
import DexContainer.Proofs.Item.Value.Nesting
import DexContainer.Proofs.Container.Integrity
import DexContainer.Proofs.Item.Code.Surviving
import DexContainer.Proofs.Container.Texts
import DexContainer.Proofs.Takes
import DexContainer.Proofs.Item.Takes
import DexContainer.Proofs.Container.Shrinking
import DexContainer.Proofs.ShortestForms
import DexContainer.Proofs.Item.RegisterForms
import DexContainer.Proofs.Container.Damage
